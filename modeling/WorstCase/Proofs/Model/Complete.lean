import WorstCase.Proofs.Loop.Sorted
import WorstCase.Proofs.Model.Layout

/-!
# When a model can be built

A scenario is complete (`Scenario.Complete`) if its tags name headers, each loop that a bound is
asked for has the bound and an edge that tells how often the loop around it is entered, and the
edges have their times. Exactly then its model can be built. Otherwise the error names something
that is not there (`Scenario.Fault`): nothing else goes wrong on the way
(`Scenario.exists_model_iff_complete`).
-/

namespace WorstCase

/-- Data that is not found is missing: the item, or all data for the subprogram. -/
theorem Database.item_eq_error {β : Type} {db : Database} {n : Nat} {item : DataItem}
    {find : SubprogramData → Option β} {error : DataError}
    (h : db.item n item find = .error error) :
    error = .missing n (if db.contains n then item else .subprogram) := by
  unfold Database.item Database.data at h
  unfold Database.contains NatMap.contains
  cases hd : db.subprograms.get? n with
  | none =>
    rw [hd] at h
    cases h
    rfl
  | some d =>
    rw [hd] at h
    simp only at h
    split at h
    · cases h
    · cases h
      rfl

namespace Scenario

/-! ## What a model needs -/

/-- Some edge is tagged as one that enters or leaves the loop of the header. -/
def Crossed (s : Scenario) (header : Nat) : Prop :=
  ∃ e ∈ s.graph.edges, e.enters header ∨ e.leaves header

/-- The loop of the header is limited by data on how often it is entered: some edge iterates it, and
it is not the loop of the entry. -/
structure Limited (s : Scenario) (entry : Nat) (h : LoopHeader) : Prop where
  header : s.nest.header? h.id = some h
  ne_entry : h.id ≠ entry
  iterated : ∃ e ∈ s.graph.edges, e.iterates h.id

/-- The loop of `h` is to be limited for each time that the loop of `a`, which is the same loop or
one around it, is entered, by the bound relative to the parent of `a`. The levels do not lie too far
apart. -/
structure Asks (s : Scenario) (entry : Nat) (h : LoopHeader) (a parent : Nat) : Prop
    extends s.Limited entry h where
  not_selfLoop : h.selfLoop = false
  around : a ∈ h.id :: h.ancestors
  around_ne_entry : a ≠ entry
  parent_eq : s.nest.parent? a = some parent
  near : ∃ level, s.nest.level parent = .ok level ∧ h.level - level ≤ s.level

/-- All that the model needs is there. -/
structure Complete (s : Scenario) (entry : Nat) : Prop where
  tags : ∀ e ∈ s.graph.edges, ∀ a ∈ e.kind.headers, s.nest.isHeader a
  selfLoops : ∀ h, s.Limited entry h → h.selfLoop = true → s.Crossed h.id
  bounds : ∀ h a parent, s.Asks entry h a parent →
    (∃ bound, s.database.loopBound s.subprogram h.id parent = .ok bound) ∧ s.Crossed a
  units : ∀ e ∈ s.graph.edges, e.kind = .trace →
    ∃ wcet, s.database.unitWcet s.subprogram e.id = .ok wcet
  callees : ∀ e ∈ s.graph.edges, ∀ callee, e.kind = .inlined callee →
    ∃ wcet, s.inlinedWcets.get? callee = some wcet

/-- What is reported missing where an item is looked for: the item, or that there is no data for the
subprogram at all. -/
def lacking (s : Scenario) (item : DataItem) : DataItem :=
  if s.database.contains s.subprogram then item else .subprogram

/-- The error names something that the model needs and that is not there. -/
inductive Fault {α : Type} (s : Scenario) (entry : Nat) : ModelError α → Prop
  | strayTag {e : Edge} {a : Nat} (he : e ∈ s.graph.edges) (ha : a ∈ e.kind.headers)
      (hno : ¬ s.nest.isHeader a) : Fault s entry (.strayTag ⟨e.id, a⟩)
  | selfLoop {h : LoopHeader} (hh : s.Limited entry h) (hs : h.selfLoop = true)
      (hno : ¬ s.Crossed h.id) : Fault s entry (.malformedLoop h.id h.id)
  | crossing {h : LoopHeader} {a parent : Nat} (hask : s.Asks entry h a parent)
      (hno : ¬ s.Crossed a) : Fault s entry (.malformedLoop h.id a)
  | bound {h : LoopHeader} {a parent : Nat} (hask : s.Asks entry h a parent)
      (hno : ¬ ∃ bound, s.database.loopBound s.subprogram h.id parent = .ok bound) :
      Fault s entry (.data (.missing s.subprogram (s.lacking (.loopBound h.id parent))))
  | unit {e : Edge} (he : e ∈ s.graph.edges) (hk : e.kind = .trace)
      (hno : ¬ ∃ wcet, s.database.unitWcet s.subprogram e.id = .ok wcet) :
      Fault s entry (.data (.missing s.subprogram (s.lacking (.unitWcet e.id))))
  | callee {e : Edge} {callee : Nat} (he : e ∈ s.graph.edges) (hk : e.kind = .inlined callee)
      (hno : ¬ ∃ wcet, s.inlinedWcets.get? callee = some wcet) :
      Fault s entry (.missingInlined e.id callee)

variable {α : Type} {s : Scenario} {entry : Nat}

theorem Fault.not_complete {error : ModelError α} (h : s.Fault entry error) :
    ¬ s.Complete entry := by
  intro hc
  cases h with
  | strayTag he ha hno => exact hno (hc.tags _ he _ ha)
  | selfLoop hh hs hno => exact hno (hc.selfLoops _ hh hs)
  | crossing hask hno => exact hno (hc.bounds _ _ _ hask).2
  | bound hask hno => exact hno (hc.bounds _ _ _ hask).1
  | unit he hk hno => exact hno (hc.units _ he hk)
  | callee he hk hno => exact hno (hc.callees _ he _ hk)

/-! ## Times -/

theorem fault_of_wcetOf {e : Edge} (he : e ∈ s.graph.edges) {error : ModelError α}
    (h : s.wcetOf e = .error error) : s.Fault entry error := by
  unfold wcetOf at h
  split at h
  · cases h
  · next hk =>
    split at h
    · cases h
    · next error' hunit =>
      cases h
      obtain rfl := Database.item_eq_error hunit
      refine .unit he hk fun ⟨wcet, hok⟩ => ?_
      rw [hok] at hunit
      cases hunit
  · next callee hk =>
    split at h
    · cases h
    · next hnone =>
      cases h
      refine .callee he hk fun ⟨wcet, hok⟩ => ?_
      rw [hnone] at hok
      cases hok
  all_goals
    split at h
    · cases h
    · cases h
    · next error' hmissing hunit =>
      exact absurd (Database.item_eq_error hunit) (hmissing _ _)

/-! ## Loops -/

section loops

variable {t : DepthFirstTree} {p : LoopPartition} {h : LoopHeader}
  (hn : LoopNest.Found s.graph t s.nest) (hp : LoopPartition.ofGraph s.graph s.nest = .ok p)

include hn hp

/-- A loop has crossings if an edge is tagged as entering or leaving it. -/
theorem crossings?_isSome_iff {a : Nat} : (crossings? p a).isSome ↔ s.Crossed a := by
  have hsorts := (LoopPartition.sorts_of_ofGraph hn.wellFormed hp).1
  have hentry := LoopPartition.entryOf_ne_nil_iff hn.wellFormed hsorts (h := a)
  have hexit : p.exitOf a ≠ [] ↔ ∃ e ∈ s.graph.edges, e.leaves a := by
    rw [hsorts.exit, LoopPartition.map_filter_edgesByVertex_ne_nil hn.wellFormed]
  have hcases : (crossings? p a).isSome ↔ p.entryOf a ≠ [] ∨ p.exitOf a ≠ [] := by
    unfold crossings?
    cases p.entryOf a <;> cases p.exitOf a <;> simp
  rw [hcases, hentry, hexit, ← exists_or]
  simp only [Crossed, and_or_left]

/-- A loop has limits if it has an edge that iterates it and is not that of the entry. -/
theorem limited_iff (hh : h ∈ s.nest.headersInward) :
    s.Limited t.root h ↔ p.backOf h.id ≠ [] ∧ h.id ≠ t.root := by
  have hsorts := (LoopPartition.sorts_of_ofGraph hn.wellFormed hp).1
  have hback := LoopPartition.backOf_ne_nil_iff hn.wellFormed hsorts (h := h.id)
  exact ⟨fun hl => ⟨hback.2 hl.iterated, hl.ne_entry⟩,
    fun hb => ⟨hn.mem_headersInward.1 hh, hb.2, hback.1 hb.1⟩⟩

/-- Where a bound is asked for, an error names the bound or the crossing that is missing. -/
theorem fault_of_boundRow? (hl : s.Limited t.root h) (hs : h.selfLoop = false) {a : Nat}
    (ha : a ∈ h.id :: h.ancestors) {error : ModelError α}
    (herror : s.boundRow? p t.root h a = .error error) : s.Fault t.root error := by
  unfold boundRow? at herror
  split at herror
  · cases herror
  · next hne =>
    obtain ⟨parent, level, hparent, hlevel, -⟩ :=
      LoopPartition.exists_parent_of_mem_ancestors hn hl.header ha hne
    simp only [hparent, hlevel] at herror
    split at herror
    · cases herror
    · next hnear =>
      have hask : s.Asks t.root h a parent :=
        { hl with
          not_selfLoop := hs
          around := ha
          around_ne_entry := hne
          parent_eq := hparent
          near := ⟨level, hlevel, Nat.not_lt.1 hnear⟩ }
      split at herror
      · next hbound =>
        cases herror
        obtain rfl := Database.item_eq_error hbound
        refine .bound hask fun ⟨bound, hok⟩ => ?_
        rw [hok] at hbound
        cases hbound
      · split at herror
        · next hnone =>
          cases herror
          refine .crossing hask fun hc => ?_
          rw [← crossings?_isSome_iff hn hp, hnone] at hc
          cases hc
        · cases herror

/-- Where a loop has to be limited, an error names what is missing for it. -/
theorem fault_of_loopLimits (hh : h ∈ s.nest.headersInward) {error : ModelError α}
    (herror : s.loopLimits p t.root h = .error error) : s.Fault t.root error := by
  unfold loopLimits at herror
  split at herror
  · cases herror
  · next hempty =>
    split at herror
    · cases herror
    · next hne =>
      have hl : s.Limited t.root h :=
        (limited_iff hn hp hh).2 ⟨fun hnil => hempty (List.isEmpty_iff.2 hnil), hne⟩
      split at herror
      · next hs =>
        split at herror
        · next hnone =>
          cases herror
          refine .selfLoop hl hs fun hc => ?_
          rw [← crossings?_isSome_iff hn hp, hnone] at hc
          cases hc
        · cases herror
      · next hs =>
        cases hrows : (p.ancestorsOf h.id).mapM (s.boundRow? (α := α) p t.root h) with
        | ok rows =>
          rw [hrows] at herror
          cases herror
        | error error' =>
          rw [hrows] at herror
          cases herror
          obtain ⟨a, ha, hrow⟩ := exists_error_of_mapM hrows
          rw [LoopPartition.ancestorsOf_eq hn.toFoundFrom hp hl.header] at ha
          exact fault_of_boundRow? hn hp hl (Bool.eq_false_iff.2 hs) ha hrow

theorem crossed_of_loopLimits (hl : s.Limited t.root h) (hs : h.selfLoop = true) {l : Limits}
    (hok : s.loopLimits (α := α) p t.root h = .ok l) : s.Crossed h.id := by
  obtain ⟨hback, hne⟩ := (limited_iff hn hp (hn.mem_headersInward.2 hl.header)).1 hl
  have hempty : (p.backOf h.id).isEmpty = false := List.isEmpty_eq_false_iff.2 hback
  simp only [loopLimits, hempty, hne, hs, Bool.false_eq_true, ↓reduceIte] at hok
  rw [← crossings?_isSome_iff hn hp]
  split at hok
  · cases hok
  · next hc => exact Option.isSome_of_eq_some hc

end loops

section model

variable [Scalar α] {t : DepthFirstTree} (hn : LoopNest.Found s.graph t s.nest)
  (hone : ¬ (Scalar.ofNat 1 : α) < Scalar.ofNat 0)

include hn hone

/-- An error of the model names something that is missing. -/
theorem fault_of_model {error : ModelError α} (h : s.model = .error error) :
    s.Fault t.root error := by
  rcases model_eq_error hn.wellFormed hn.entry_eq hone h with
    ⟨tag, hp, rfl⟩ | ⟨p, hp, hloop | htime⟩
  · obtain ⟨e, he, hedge, ha, hno⟩ := LoopPartition.ofGraph_eq_error hn.toFoundFrom hp
    obtain ⟨edge, header⟩ := tag
    cases hedge
    exact .strayTag he ha hno
  · obtain ⟨header, hh, herror⟩ := hloop
    exact fault_of_loopLimits hn hp hh herror
  · obtain ⟨e, he, herror⟩ := htime
    exact fault_of_wcetOf he herror

/-- A model that is made has all that it needs. -/
theorem complete_of_model {m : FlowModel α} (hmodel : s.model = .ok m) : s.Complete t.root := by
  obtain ⟨p, loops, time, hp, hloops, htime, -⟩ :=
    (model_eq_ok_iff hn.wellFormed hn.entry_eq hone).1 hmodel
  have hmem : ∀ h, s.Limited t.root h → h ∈ s.nest.headersInward := fun h hl =>
    hn.mem_headersInward.2 hl.header
  constructor
  case tags => exact fun e he a ha => LoopPartition.isHeader_of_ofGraph hn.toFoundFrom hp he ha
  case selfLoops =>
    intro h hl hs
    obtain ⟨l, -, hok⟩ := exists_mem_of_mapM hloops (hmem h hl)
    exact crossed_of_loopLimits hn hp hl hs hok
  case bounds =>
    intro h a parent hask
    have hh := hmem h hask.toLimited
    obtain ⟨hback, hne⟩ := (limited_iff hn hp hh).1 hask.toLimited
    obtain ⟨level, hlevel, hnear⟩ := hask.near
    have ha := hask.around
    rw [← LoopPartition.ancestorsOf_eq hn.toFoundFrom hp hask.header] at ha
    obtain ⟨r, hrow⟩ := exists_boundRow hn.entry_eq hmodel hp hh hne hback hask.not_selfLoop ha
      hask.around_ne_entry hask.parent_eq hlevel hnear
    obtain ⟨-, hparent, -, -, hbound, hc⟩ := hrow
    rw [hask.parent_eq] at hparent
    cases hparent
    exact ⟨⟨_, hbound⟩, (crossings?_isSome_iff hn hp).1 (Option.isSome_of_eq_some hc)⟩
  case units =>
    intro e he hk
    obtain ⟨wcet, hw, -⟩ := htime e he
    simp only [wcetOf, hk] at hw
    split at hw
    · next hunit => exact ⟨_, hunit⟩
    · cases hw
  case callees =>
    intro e he callee hk
    obtain ⟨wcet, hw, -⟩ := htime e he
    simp only [wcetOf, hk] at hw
    split at hw
    · next hcallee => exact ⟨_, hcallee⟩
    · cases hw

end model

/-- The model of a subprogram can be built exactly if the scenario is complete, and where it cannot
the error names something that is not there. The level that is taken off the level of a loop is
always a smaller one. -/
theorem exists_model_iff_complete {sub : Subprogram} (hsub : sub.Made) {s : Scenario}
    (hgraph : s.graph = sub.graph) (hnest : s.nest = sub.nest) :
    ∃ entry, s.graph.entry? = some entry ∧
      ((∃ m : FlowModel Float, s.model = .ok m) ↔ s.Complete entry) ∧
      (∀ error : ModelError Float, s.model = .error error → s.Fault entry error) ∧
      ∀ h a, s.nest.header? h.id = some h → a ∈ h.id :: h.ancestors → a ≠ entry →
        ∃ parent level, s.nest.parent? a = some parent ∧ s.nest.level parent = .ok level ∧
          level < h.level := by
  obtain ⟨t, hn⟩ := hsub.found
  rw [← hgraph, ← hnest] at hn
  have hone : ¬ (Scalar.ofNat 1 : Float) < Scalar.ofNat 0 := by decide
  refine ⟨t.root, hn.entry_eq, ⟨?_, ?_⟩, ?_, ?_⟩
  · rintro ⟨m, hm⟩
    exact complete_of_model hn hone hm
  · intro hc
    cases hm : s.model (α := Float) with
    | ok m => exact ⟨m, rfl⟩
    | error error => exact absurd hc (fault_of_model hn hone hm).not_complete
  · exact fun error herror => fault_of_model hn hone herror
  · exact fun h a hh ha hne => LoopPartition.exists_parent_of_mem_ancestors hn hh ha hne

open Sample in
/-- With its data the sample with nested loops is complete. Without any, the bound of the inner loop
relative to the outer one is missed first. -/
theorem exists_model_iff_complete_nestedMain :
    nestedMain.Made ∧ (ofSubprogram nestedMain mainDatabase).Complete 1 ∧
      let s := ofSubprogram nestedMain ⟨NatMap.empty.insert mainId .empty⟩
      s.Fault (α := Float) 1 (.data (.missing mainId (.loopBound 3 2))) ∧ ¬ s.Complete 1 := by
  obtain ⟨m, hm⟩ : ∃ m : FlowModel Float,
    (ofSubprogram nestedMain mainDatabase).model = .ok m := ⟨_, rfl⟩
  have herror : (ofSubprogram nestedMain ⟨NatMap.empty.insert mainId .empty⟩).model =
    .error (.data (.missing mainId (.loopBound 3 2)) : ModelError Float) := rfl
  obtain ⟨entry, he, hcomplete, -⟩ :=
    exists_model_iff_complete made_nestedMain (s := ofSubprogram nestedMain mainDatabase) rfl rfl
  obtain ⟨entry', he', hiff, hfault, -⟩ := exists_model_iff_complete made_nestedMain
    (s := ofSubprogram nestedMain ⟨NatMap.empty.insert mainId .empty⟩) rfl rfl
  obtain rfl : 1 = entry := Option.some.inj ((show _ = some 1 by decide).symm.trans he)
  obtain rfl : 1 = entry' := Option.some.inj ((show _ = some 1 by decide).symm.trans he')
  refine ⟨made_nestedMain, hcomplete.1 ⟨m, hm⟩, hfault _ herror, fun hc => ?_⟩
  obtain ⟨m', hm'⟩ := hiff.2 hc
  rw [herror] at hm'
  cases hm'

end Scenario

end WorstCase
