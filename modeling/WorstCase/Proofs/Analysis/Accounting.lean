import WorstCase.Proofs.Analysis.Calculation
import WorstCase.Proofs.Analysis.Described
import WorstCase.Proofs.Model.Sound
import WorstCase.Proofs.Program.Recursion

/-!
# What becomes of each subprogram

After a run every subprogram has a solution or a failure, and never both
(`Engine.Accounted`). A failure spreads to the callers, which have no time for the call. Running
again calculates the same from the same times, so nothing changes but that the failures are noted
once more (`Engine.runs_accounted`). For what a run has recorded does not change when it is recorded
again (`Engine.Settled`).
-/

namespace WorstCase

/-! ## What results hold -/

namespace Results

/-- What the results have for a number: a solution with its time, or neither. -/
def Holds (r : Results) (id : Nat) (solution? : Option WcetSolution) : Prop :=
  r.wcets.get? id = solution?.map (·.wcet) ∧ r.solutions.get? id = solution?

/-- The times and the solutions are in ascending order of their numbers. -/
def Ascending (r : Results) : Prop :=
  r.wcets.Ascending ∧ r.solutions.Ascending

variable {r : Results} {id : Nat}

/-- The entry of an outcome holds its solution, if it is one. -/
theorem holds_of_entry {outcome : Except Failure WcetSolution} (h : r.entry id = .of outcome) :
    r.Holds id outcome.toOption := by
  cases outcome with
  | ok solution => exact ⟨congrArg Entry.wcet h, congrArg Entry.solution h⟩
  | error failure => exact ⟨congrArg Entry.wcet h, congrArg Entry.solution h⟩

theorem holds_of_blank (h : r.entry id = .blank) : r.Holds id none :=
  ⟨congrArg Entry.wcet h, congrArg Entry.solution h⟩

theorem Ascending.record (h : r.Ascending) (outcome : Except Failure WcetSolution) :
    (r.record id outcome).Ascending := by
  cases outcome with
  | ok solution => exact ⟨h.1.insert .., h.2.insert ..⟩
  | error failure => exact h

/-- Recording what is held already leaves all but the failures. -/
theorem record_eq_of_holds (hr : r.Ascending) {outcome : Except Failure WcetSolution}
    (h : r.Holds id outcome.toOption) :
    r.record id outcome = { r with failures := r.failures ++ (failure? outcome).toList } := by
  cases outcome with
  | ok solution =>
    rw [record, hr.1.insert_eq_self h.1, hr.2.insert_eq_self h.2, failure?, Option.toList_none,
      List.append_nil]
  | error failure => rfl

end Results

namespace Engine

variable {e : Engine}

/-- A subprogram fails if there is no time for one that it calls. -/
theorem exists_outcome_error (e : Engine) (blocked : Bool) {wcets : NatMap Nat} {s : Subprogram}
    (hs : s.Made) {edge : Edge} (hedge : edge ∈ s.graph.edges) {c : Nat}
    (hkind : edge.kind = .inlined c) (hc : wcets.get? c = none) :
    ∃ f, e.outcome blocked wcets s = .error f := by
  cases hm : e.modelOf wcets s with
  | error error => exact ⟨_, by rw [outcome, hm]⟩
  | ok m =>
    obtain ⟨t, hn⟩ := hs.found
    obtain ⟨p, time, -, -, htime⟩ := Scenario.described_model hn.wellFormed hn.entry_eq hm
    obtain ⟨wcet, hwcet, -⟩ := htime edge hedge
    simp only [Scenario.wcetOf, hkind, hc] at hwcet
    cases hwcet

/-! ## Runs that change results in place -/

/-- Calculating subprograms that are all found never stops half-way. -/
theorem calculateEach_eq {ids : List Nat} (h : ∀ id ∈ ids, ∃ s, e.program.find? id = some s)
    (state : Archive × Results) : e.calculateEach ids state =
      (.ok (), (ids.filterMap e.program.find?).foldl e.advance state) := by
  induction ids generalizing state with
  | nil => rfl
  | cons id ids ih =>
    obtain ⟨s, hs⟩ := h id List.mem_cons_self
    rw [List.filterMap_cons_some hs, List.foldl_cons,
      ← ih fun id hid => h id (List.mem_cons_of_mem _ hid)]
    simp only [calculateEach, Program.subprogram, hs]

/-- A run in place answers as a run does, and leaves what the run gives. -/
theorem runInPlace_of_run_ok (hp : e.program.Built) {a : Archive} {r : Results}
    {state : Archive × Results} (h : e.run a r = .ok state) :
    e.runInPlace (a, r) = (.ok (), state) := by
  unfold run at h
  split at h
  · cases h
  · next order horder =>
    cases h
    simp only [runInPlace, horder]
    exact calculateEach_eq (fun id hid => (hp.bottomUp_of_eq_ok horder).1.exists_find? hid) (a, r)

/-- A run that cannot be ordered leaves the archive and the results as they are. -/
theorem runInPlace_of_run_error {a : Archive} {r : Results} {error : ProgramError}
    (h : e.run a r = .error error) : e.runInPlace (a, r) = (.error error, (a, r)) := by
  unfold run at h
  split at h
  · next horder =>
    cases h
    simp only [runInPlace, horder]
  · cases h

/-! ## Results that a run does not change -/

/-- The results have the outcomes of subprograms, given the times in these same results. -/
structure Settled (e : Engine) (blocked : Bool) (order : List Nat) (r : Results) : Prop where
  ascending : r.Ascending
  holds : ∀ s, e.program.find? s.id = some s → s.id ∈ order →
    r.Holds s.id (e.outcome blocked r.wcets s).toOption

variable {blocked : Bool} {order : List Nat} {r : Results}

/-- Calculating subprograms again leaves all but the failures. -/
theorem Settled.foldl_advance {a : Archive} (h : e.Settled a.isBlocked order r)
    {ss : List Subprogram} (hss : ∀ s ∈ ss, e.program.find? s.id = some s ∧ s.id ∈ order) :
    ∃ a', a'.isBlocked = a.isBlocked ∧ ss.foldl e.advance (a, r) =
      (a', { r with failures := r.failures ++ e.failuresOf a.isBlocked r.wcets ss }) := by
  induction ss generalizing a r with
  | nil => exact ⟨a, rfl, by rw [failuresOf, List.filterMap_nil, List.append_nil]; rfl⟩
  | cons s ss ih =>
    obtain ⟨hs, hid⟩ := hss s List.mem_cons_self
    obtain ⟨a₁, hblocked, -, hadvance⟩ := e.exists_advance_eq a r s
    rw [Results.record_eq_of_holds h.ascending (h.holds s hs hid)] at hadvance
    rw [← hblocked] at h hadvance ⊢
    -- What is settled does not depend on the failures.
    obtain ⟨a', hblocked', hrest⟩ := ih (a := a₁)
      (r := { r with failures :=
        r.failures ++ (Results.failure? (e.outcome a₁.isBlocked r.wcets s)).toList })
      ⟨h.ascending, h.holds⟩ fun t ht => hss t (List.mem_cons_of_mem _ ht)
    refine ⟨a', hblocked', ?_⟩
    rw [List.foldl_cons, hadvance, hrest]
    simp only [failuresOf, List.filterMap_cons, List.append_assoc]
    cases Results.failure? (e.outcome a₁.isBlocked r.wcets s) <;> rfl

theorem ascending_foldl_advance {a : Archive} (h : r.Ascending) (ss : List Subprogram) :
    (ss.foldl e.advance (a, r)).2.Ascending := by
  induction ss generalizing a r with
  | nil => exact h
  | cons s ss ih =>
    obtain ⟨a', -, -, hadvance⟩ := e.exists_advance_eq a r s
    rw [List.foldl_cons, hadvance]
    exact ih (h.record _)

/-- What a run on new results has recorded is settled. -/
theorem Calculated.settled (h : e.Calculated blocked order r) (hr : r.Ascending) :
    e.Settled blocked order r :=
  ⟨hr, fun s hs hid => Results.holds_of_entry (h.entry s hs hid)⟩

/-- A run keeps its results in ascending order. -/
theorem ascending_of_run {a a' : Archive} (h : e.run a .empty = .ok (a', r)) : r.Ascending := by
  unfold run at h
  split at h
  · cases h
  · next order _ =>
    have hkept := ascending_foldl_advance (e := e) (a := a) (r := .empty) ⟨.nil, .nil⟩
      (order.filterMap e.program.find?)
    rwa [Except.ok.inj h] at hkept

/-! ## Accounts -/

/-- Whether a subprogram fails, given the times of all. -/
def fails (e : Engine) (blocked : Bool) (wcets : NatMap Nat) (id : Nat) : Bool :=
  ((e.program.find? id).bind fun s => Results.failure? (e.outcome blocked wcets s)).isSome

/-- A subprogram fails if its outcome is no solution. -/
theorem fails_eq (blocked : Bool) {s : Subprogram} (hs : e.program.find? s.id = some s)
    (wcets : NatMap Nat) :
    e.fails blocked wcets s.id = (e.outcome blocked wcets s).toOption.isNone := by
  simp only [fails, hs, Option.bind_some]
  cases e.outcome blocked wcets s <;> rfl

/-- The failures are those of the subprograms that fail, in the order of calculation. -/
theorem map_failuresOf (h : ∀ id ∈ order, ∃ s, e.program.find? id = some s)
    (wcets : NatMap Nat) :
    (e.failuresOf blocked wcets (order.filterMap e.program.find?)).map (·.subprogram) =
      order.filter (e.fails blocked wcets) := by
  induction order with
  | nil => rfl
  | cons id order ih =>
    obtain ⟨s, hs⟩ := h id List.mem_cons_self
    obtain rfl := Program.id_of_find? hs
    have ih := ih fun id hid => h id (List.mem_cons_of_mem _ hid)
    unfold failuresOf at ih ⊢
    rw [List.filterMap_cons_some hs, List.filterMap_cons, List.filter_cons, ← ih,
      fails_eq blocked hs]
    cases ho : e.outcome blocked wcets s with
    | ok solution => rfl
    | error failure => exact congrArg (· :: _) (subprogram_of_outcome blocked wcets s _ ho)

/-- What has become of the subprograms of a program after its first run. -/
structure Accounted (e : Engine) (order : List Nat) (r : Results) : Prop where
  /-- Each subprogram is solved or failed. -/
  outcome : ∀ s ∈ e.program.subprograms,
    (∃ solution, r.Holds s.id (some solution) ∧ s.id ∉ r.failures.map (·.subprogram)) ∨
      r.Holds s.id none ∧ (r.failures.map (·.subprogram)).count s.id = 1
  /-- Nothing is noted for other numbers. -/
  blank : ∀ id ∉ e.program.subprograms.map (·.id),
    r.Holds id none ∧ id ∉ r.failures.map (·.subprogram)
  failures_sublist : (r.failures.map (·.subprogram)).Sublist order
  spreads : ∀ caller callee, e.program.Calls caller callee →
    callee ∈ r.failures.map (·.subprogram) → caller ∈ r.failures.map (·.subprogram)

/-- What a run has calculated accounts for every subprogram. -/
theorem Calculated.accounted (h : e.Calculated blocked order r) (hp : e.program.Built)
    (hmade : ∀ s ∈ e.program.subprograms, s.Made) (horder : e.program.BottomUp order)
    (hall : ∀ s ∈ e.program.subprograms, s.id ∈ order) : e.Accounted order r := by
  have hfailures : r.failures.map (·.subprogram) = order.filter (e.fails blocked r.wcets) := by
    rw [h.failures_eq, map_failuresOf (fun id => horder.exists_find?)]
  have hfind : ∀ s ∈ e.program.subprograms, e.program.find? s.id = some s := fun s hs =>
    hp.find?_eq_some_iff.2 ⟨hs, rfl⟩
  constructor
  · intro s hs
    have hholds := Results.holds_of_entry (h.entry s (hfind s hs) (hall s hs))
    have hfails := fails_eq blocked (hfind s hs) r.wcets
    rw [hfailures]
    cases ho : e.outcome blocked r.wcets s with
    | ok solution =>
      rw [ho] at hholds hfails
      refine .inl ⟨solution, hholds, fun hmem => ?_⟩
      exact Bool.false_ne_true (hfails.symm.trans (List.mem_filter.1 hmem).2)
    | error failure =>
      rw [ho] at hholds hfails
      refine .inr ⟨hholds, ?_⟩
      rw [List.count_filter hfails, List.count_eq_one_of_mem horder.nodup (hall s hs)]
  · intro id hid
    have hnot : id ∉ order := fun hmem => by
      obtain ⟨s, hs⟩ := horder.exists_find? hmem
      obtain rfl := Program.id_of_find? hs
      exact hid (List.mem_map_of_mem (Program.mem_of_find? hs))
    rw [hfailures]
    exact ⟨Results.holds_of_blank (h.blank id hnot), fun hmem => hnot (List.mem_filter.1 hmem).1⟩
  · rw [hfailures]
    exact List.filter_sublist
  · rintro caller callee ⟨s, hs, rfl, edge, hedge, hkind⟩ hcallee
    rw [hfailures, List.mem_filter] at hcallee ⊢
    obtain ⟨t, ht⟩ := horder.exists_find? hcallee.1
    obtain rfl := Program.id_of_find? ht
    -- The callee failed, so there is no time for it.
    have hnone : r.wcets.get? t.id = none := by
      have hfails := fails_eq blocked ht r.wcets
      rw [hcallee.2, eq_comm, Option.isNone_iff_eq_none] at hfails
      rw [(Results.holds_of_entry (h.entry t ht hcallee.1)).1, hfails, Option.map_none]
    obtain ⟨failure, ho⟩ := e.exists_outcome_error blocked (hmade s hs) hedge hkind hnone
    exact ⟨hall s hs, by rw [fails_eq blocked (hfind s hs), ho]; rfl⟩

/-! ## Any number of runs -/

/-- Runs one after the other, each on what the one before it has left. -/
def runs (e : Engine) : Nat → Archive × Results → Except ProgramError (Archive × Results)
  | 0, state => .ok state
  | n + 1, state => (e.runs n state).bind fun state => e.run state.1 state.2

/-- Each run after the first notes the same failures once more. -/
theorem Calculated.exists_runs {a a' : Archive} (h : e.Calculated a.isBlocked order r)
    (horder : e.program.bottomUp = .ok order) (ha : a'.isBlocked = a.isBlocked)
    (hrun : e.run a .empty = .ok (a', r)) (n : Nat) :
    ∃ a'', a''.isBlocked = a.isBlocked ∧ e.runs (n + 1) (a, .empty) =
      .ok (a'', { r with failures := (List.replicate (n + 1) r.failures).flatten }) := by
  induction n with
  | zero =>
    refine ⟨a', ha, hrun.trans ?_⟩
    rw [List.replicate_one, List.flatten_singleton]
  | succ n ih =>
    obtain ⟨a₁, hblocked, hruns⟩ := ih
    have hr := h.settled (ascending_of_run hrun)
    have hsettled : e.Settled a₁.isBlocked order
        { r with failures := (List.replicate (n + 1) r.failures).flatten } :=
      hblocked ▸ ⟨hr.ascending, hr.holds⟩
    obtain ⟨a'', hblocked', hfold⟩ :=
      hsettled.foldl_advance fun s => find?_of_mem_filterMap
    refine ⟨a'', hblocked'.trans hblocked, ?_⟩
    rw [hblocked, ← h.failures_eq] at hfold
    rw [runs, hruns, List.replicate_succ' (n := n + 1), List.flatten_append,
      List.flatten_singleton]
    simp only [Except.bind, run, horder, hfold]

/-- **Outcomes.** A run that fails changes nothing. After a run on new results every subprogram is
solved or failed, and further runs change nothing but that they note the same failures again. -/
theorem runs_accounted {e : Engine} (hp : e.program.Built)
    (hmade : ∀ s ∈ e.program.subprograms, s.Made) :
    (∀ a r,
      (∀ state, e.run a r = .ok state → e.runInPlace (a, r) = (.ok (), state)) ∧
      (∀ error, e.run a r = .error error → e.runInPlace (a, r) = (.error error, (a, r)))) ∧
    ∀ a a' r, e.run a .empty = .ok (a', r) →
      ∃ order, e.program.bottomUp = .ok order ∧ e.Accounted order r ∧
        ∀ n, ∃ a'', e.runs (n + 1) (a, .empty) =
          .ok (a'', { r with failures := (List.replicate (n + 1) r.failures).flatten }) := by
  refine ⟨fun a r => ⟨fun state => runInPlace_of_run_ok hp,
    fun error => runInPlace_of_run_error⟩, fun a a' r hrun => ?_⟩
  cases horder : e.program.bottomUp with
  | error error =>
    rw [run, horder] at hrun
    cases hrun
  | ok order =>
    obtain ⟨hbottomUp, hall⟩ := hp.bottomUp_of_eq_ok horder
    obtain ⟨a₁, r₁, hrun₁, hblocked, -, hcalculated⟩ := exists_run hp a horder
    obtain ⟨rfl, rfl⟩ := Prod.mk.inj (Except.ok.inj (hrun.symm.trans hrun₁))
    refine ⟨order, rfl, hcalculated.accounted hp hmade hbottomUp hall, fun n => ?_⟩
    obtain ⟨a'', -, hruns⟩ := hcalculated.exists_runs horder hblocked hrun n
    exact ⟨a'', hruns⟩

end Engine

namespace Sample

/-- A described subprogram is made from a built graph. -/
theorem made_of_subprogram {id : Nat} {spec : GraphSpec} {s : Subprogram}
    (hk : ∀ e ∈ spec.edges, e.kind.Ascending) (h : subprogram id spec = .ok s) : s.Made := by
  unfold subprogram at h
  cases hbuild : spec.build with
  | error error =>
    rw [hbuild] at h
    cases h
  | ok g =>
    rw [hbuild] at h
    simp only [Request.lift, Bind.bind, Except.bind] at h
    cases hs : Subprogram.ofGraphTagged id spec.name g with
    | error error =>
      rw [hs] at h
      cases h
    | ok s' =>
      rw [hs] at h
      cases h
      exact .ofGraphTagged (GraphSpec.built_of_build hk hbuild) hs

theorem ascending_nestedLoops (name : String) (callLeaf : Bool) :
    ∀ e ∈ (nestedLoops name callLeaf).edges, e.kind.Ascending := by
  cases callLeaf <;> simp [nestedLoops, numbered, EdgeKind.Ascending]

theorem ascending_leaf (name : String) : ∀ e ∈ (leaf name).edges, e.kind.Ascending := by
  simp [leaf, numbered, EdgeKind.Ascending]

theorem made_callersFirst : ∀ s ∈ callersFirst.subprograms, s.Made := by
  simp only [callersFirst, List.forall_mem_cons, List.not_mem_nil, false_implies, implies_true,
    and_true]
  exact ⟨made_of_subprogram (ascending_nestedLoops "main" true) rfl,
    made_of_subprogram (ascending_leaf "leaf") rfl,
    made_of_subprogram (ascending_leaf "stranger") rfl⟩

/-- Calculates the sample program with data for the stranger only, so that the leaf fails and its
caller with it. -/
def bareEngine : Engine :=
  { engine with database := ⟨NatMap.empty.insert strangerId leafData⟩ }

end Sample

namespace Engine

open Sample in
/-- The leaf has no data, so the main subprogram, which calls it, has no time for the call. -/
theorem runs_accounted_bareEngine : ∃ a r, bareEngine.run .empty .empty = .ok (a, r) ∧
    r.failures.map (·.subprogram) = [leafId, mainId] ∧ r.wcets.get? strangerId = some 38 ∧
      bareEngine.Accounted [leafId, mainId, strangerId] r ∧
      ∀ n, ∃ a', bareEngine.runs (n + 1) (.empty, .empty) =
        .ok (a', { r with failures := (List.replicate (n + 1) r.failures).flatten }) := by
  have hview : (bareEngine.run .empty .empty).toOption.map (fun state =>
      (state.2.failures.map (·.subprogram), state.2.wcets.get? strangerId)) =
        some ([leafId, mainId], some 38) := by decide +kernel
  have horder : bareEngine.program.bottomUp = .ok [leafId, mainId, strangerId] := by decide
  cases hrun : bareEngine.run .empty .empty with
  | error error =>
    rw [hrun] at hview
    cases hview
  | ok state =>
    obtain ⟨a, r⟩ := state
    rw [hrun] at hview
    obtain ⟨hfailures, hwcet⟩ := Prod.mk.inj (Option.some.inj hview)
    obtain ⟨order, h, haccounted, hruns⟩ :=
      (runs_accounted (e := bareEngine) built_callersFirst made_callersFirst).2 _ _ _ hrun
    obtain rfl : order = [leafId, mainId, strangerId] := Except.ok.inj (h.symm.trans horder)
    exact ⟨a, r, rfl, hfailures, hwcet, haccounted, hruns⟩

end Engine

end WorstCase
