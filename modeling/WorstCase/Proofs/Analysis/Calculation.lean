import Mathlib.Data.List.Perm.Basic
import WorstCase.Analysis.Sample
import WorstCase.Proofs.Graph.Built
import WorstCase.Proofs.Loop.Partition
import WorstCase.Proofs.Program.Order

/-!
# What a calculation records

The model of a subprogram has the times of its callees and no others (`Scenario.model_congr`), and
whether its listing is written does not depend on what was written before. So the outcome of a
subprogram depends on the times of its callees and on nothing else that has been recorded
(`Engine.outcome_congr`). When a subprogram is calculated, these times are already the ones that all
later steps find. So a run records the outcome of every subprogram, given what it has recorded for
the callees (`Engine.exists_run`), and two runs over the same subprograms record the same whatever
order they go in (`Engine.Calculated.entry_eq`).
-/

namespace WorstCase

/-- Lists that have the same members of each key, in the same order, have the same members. -/
theorem perm_of_filter_eq {ι : Type} {xs ys : List ι} {key : ι → Nat}
    (h : ∀ k, xs.filter (key · == k) = ys.filter (key · == k)) : xs.Perm ys := by
  classical
  refine List.perm_iff_count.2 fun x => ?_
  have hx := congrArg (List.count x) (h (key x))
  have hcount : ∀ zs : List ι, (zs.filter (key · == key x)).count x = zs.count x := fun zs =>
    List.count_filter (beq_self_eq_true (key x))
  rwa [hcount, hcount] at hx

/-! ## The times that a model has -/

theorem FlowModel.addObjective_congr {m : FlowModel Float} {g : FlowGraph}
    {wcetOf wcetOf' : Edge → Except (ModelError Float) Nat}
    (h : ∀ e ∈ g.edges, wcetOf e = wcetOf' e) :
    m.addObjective g wcetOf = m.addObjective g wcetOf' := by
  unfold addObjective
  congr 1
  funext m ⟨id, i⟩
  simp only [FlowGraph.edge]
  cases hid : g.edge? id with
  | none => rfl
  | some e => simp only [h e (FlowGraph.mem_of_edge? hid).1]

namespace Scenario

theorem wcetOf_congr {s : Scenario} {wcets : NatMap Nat} {e : Edge}
    (h : ∀ c, e.kind = .inlined c → s.inlinedWcets.get? c = wcets.get? c) :
    s.wcetOf (α := Float) e = { s with inlinedWcets := wcets }.wcetOf e := by
  unfold wcetOf
  cases hk : e.kind with
  | inlined c => simp only [h c hk]
  | _ => rfl

/-- A model has the times of the subprograms that are called, and no others. -/
theorem model_congr {s : Scenario} {wcets : NatMap Nat}
    (h : ∀ e ∈ s.graph.edges, ∀ c, e.kind = .inlined c → s.inlinedWcets.get? c = wcets.get? c) :
    s.model (α := Float) = { s with inlinedWcets := wcets }.model := by
  have hobjective : ∀ m : FlowModel Float, m.addObjective s.graph s.wcetOf =
      m.addObjective s.graph { s with inlinedWcets := wcets }.wcetOf := fun m =>
    FlowModel.addObjective_congr fun e he => wcetOf_congr (h e he)
  unfold model
  simp only [hobjective]
  rfl

end Scenario

/-! ## Entries of results -/

/-- What results have for one number. -/
structure Entry where
  wcet : Option Nat
  solution : Option WcetSolution
  failures : List Failure

namespace Entry

def blank : Entry := ⟨none, none, []⟩

/-- A solution with its time, or a failure. -/
def of : Except Failure WcetSolution → Entry
  | .ok solution => ⟨some solution.wcet, some solution, []⟩
  | .error failure => ⟨none, none, [failure]⟩

/-- The entry of a subprogram whose listing is not written. -/
def ofOutcome (s : Subprogram) (outcome : Except (ModelError Float) WcetSolution) : Entry :=
  of (outcome.mapError fun error => ⟨s.id, s.name, error, none⟩)

end Entry

namespace Results

def entry (r : Results) (id : Nat) : Entry :=
  ⟨r.wcets.get? id, r.solutions.get? id, r.failures.filter (·.subprogram == id)⟩

/-- The failure of a subprogram, if it has no solution. -/
def failure? : Except Failure WcetSolution → Option Failure
  | .ok _ => none
  | .error failure => some failure

/-- Notes the outcome of the subprogram with the number `id`. -/
def record (r : Results) (id : Nat) : Except Failure WcetSolution → Results
  | .ok solution =>
    { r with
      wcets := r.wcets.insert id solution.wcet
      solutions := r.solutions.insert id solution }
  | .error failure => { r with failures := r.failures ++ [failure] }

variable {r : Results} {id : Nat} {outcome : Except Failure WcetSolution}
  (ho : ∀ failure, outcome = .error failure → failure.subprogram = id)

include ho

theorem entry_record_of_ne {k : Nat} (h : k ≠ id) : (r.record id outcome).entry k = r.entry k := by
  cases outcome with
  | ok solution => simp only [entry, record, NatMap.get?_insert, if_neg h]
  | error failure =>
    have hother : (failure.subprogram == k) = false :=
      beq_eq_false_iff_ne.2 (ho failure rfl ▸ h.symm)
    simp [entry, record, hother]

theorem entry_record_self (h : r.entry id = .blank) :
    (r.record id outcome).entry id = .of outcome := by
  simp only [entry, Entry.blank, Entry.mk.injEq] at h
  obtain ⟨hwcet, hsolution, hfailures⟩ := h
  cases outcome with
  | ok solution => simp only [entry, record, Entry.of, NatMap.get?_insert, ↓reduceIte, hfailures]
  | error failure => simp [entry, record, Entry.of, hwcet, hsolution, hfailures, ho failure rfl]

end Results

/-! ## One subprogram -/

/-- Whether nothing can be written. -/
def Archive.isBlocked : Archive → Bool
  | .blocked => true
  | .files _ => false

/-- Writing does not depend on what has been written before. -/
theorem Archive.write_eq (a : Archive) (name content : String) :
    (a.write name content).1.isBlocked = a.isBlocked ∧
      (a.write name content).2 = (!a.isBlocked && isFileName name) := by
  cases a with
  | blocked => exact ⟨rfl, rfl⟩
  | files entries =>
    rw [write]
    split
    · next hname => exact ⟨rfl, hname.symm⟩
    · next hname => exact ⟨rfl, (Bool.eq_false_iff.2 hname).symm⟩

namespace Engine

variable {e : Engine}

/-- The file with the listing of the model of a subprogram, if one is written. -/
def listingOf (e : Engine) (blocked : Bool) (s : Subprogram) : Option String :=
  match e.settings.listingDirectory with
  | none => none
  | some _ =>
    let file := s.name ++ s!".lp{e.testsOf s}"
    if !blocked && Archive.isFileName file then some file else none

/-- The outcome of a subprogram, given the times of those it calls. -/
def outcome (e : Engine) (blocked : Bool) (wcets : NatMap Nat) (s : Subprogram) :
    Except Failure WcetSolution :=
  match e.modelOf wcets s with
  | .error error => .error ⟨s.id, s.name, error, none⟩
  | .ok m =>
    match m.solve e.solver with
    | .error error => .error ⟨s.id, s.name, error, e.listingOf blocked s⟩
    | .ok solution => .ok solution

/-- The outcome of a subprogram alone, whatever becomes of its listing. -/
def alone (e : Engine) (wcets : NatMap Nat) (s : Subprogram) :
    Except (ModelError Float) WcetSolution := do
  let m ← e.modelOf wcets s
  m.solve e.solver

/-- Without a place for listings, a failure names none. -/
theorem outcome_eq_alone (he : e.settings.listingDirectory = none) (blocked : Bool)
    (wcets : NatMap Nat) (s : Subprogram) : e.outcome blocked wcets s =
      (e.alone wcets s).mapError fun error => ⟨s.id, s.name, error, none⟩ := by
  have hlisting : e.listingOf blocked s = none := by rw [listingOf, he]
  simp only [outcome, alone, hlisting]
  cases e.modelOf wcets s with
  | error error => rfl
  | ok m =>
    simp only [Bind.bind, Except.bind]
    cases m.solve e.solver with
    | error error => rfl
    | ok solution => rfl

theorem archiveModel_eq (e : Engine) (a : Archive) (m : FlowModel Float) (s : Subprogram) :
    (e.archiveModel a m s.name (e.testsOf s)).1.isBlocked = a.isBlocked ∧
      (e.settings.listingDirectory = none → (e.archiveModel a m s.name (e.testsOf s)).1 = a) ∧
      (e.archiveModel a m s.name (e.testsOf s)).2 = e.listingOf a.isBlocked s := by
  unfold archiveModel listingOf
  cases e.settings.listingDirectory with
  | none => exact ⟨rfl, fun _ => rfl, rfl⟩
  | some directory =>
    obtain ⟨hblocked, hwritten⟩ := a.write_eq (s.name ++ s!".lp{e.testsOf s}") m.listing
    refine ⟨hblocked, fun hnone => ?_, by simp only [hwritten]⟩
    cases hnone

/-- A step records the outcome of a subprogram. Without a place for listings it writes nothing. -/
theorem exists_advance_eq (e : Engine) (a : Archive) (r : Results) (s : Subprogram) :
    ∃ a', a'.isBlocked = a.isBlocked ∧ (e.settings.listingDirectory = none → a' = a) ∧
      e.advance (a, r) s = (a', r.record s.id (e.outcome a.isBlocked r.wcets s)) := by
  simp only [advance, calculate, outcome]
  cases e.modelOf r.wcets s with
  | error error => exact ⟨a, rfl, fun _ => rfl, rfl⟩
  | ok m =>
    obtain ⟨hblocked, hkept, hfile⟩ := e.archiveModel_eq a m s
    refine ⟨(e.archiveModel a m s.name (e.testsOf s)).1, hblocked, hkept, ?_⟩
    simp only [← hfile]
    cases m.solve e.solver with
    | error error => rfl
    | ok solution => rfl

theorem modelOf_congr (e : Engine) {wcets wcets' : NatMap Nat} {s : Subprogram}
    (h : ∀ c ∈ s.callees, wcets.get? c = wcets'.get? c) : e.modelOf wcets s = e.modelOf wcets' s :=
  Scenario.model_congr fun edge hedge c hc => h c (Subprogram.mem_callees_iff.2 ⟨edge, hedge, hc⟩)

/-- The outcome depends on the times of callees only. -/
theorem outcome_congr (e : Engine) (blocked : Bool) {wcets wcets' : NatMap Nat} {s : Subprogram}
    (h : ∀ c ∈ s.callees, wcets.get? c = wcets'.get? c) :
    e.outcome blocked wcets s = e.outcome blocked wcets' s := by
  rw [outcome, outcome, e.modelOf_congr h]

/-- A failure has the number of its subprogram. -/
theorem subprogram_of_outcome (blocked : Bool) (wcets : NatMap Nat) (s : Subprogram) (f : Failure)
    (h : e.outcome blocked wcets s = .error f) : f.subprogram = s.id := by
  unfold outcome at h
  split at h
  · cases h
    rfl
  · split at h
    · cases h
      rfl
    · cases h

/-! ## Runs -/

/-- The failures of subprograms, given the times of all. -/
def failuresOf (e : Engine) (blocked : Bool) (wcets : NatMap Nat) (ss : List Subprogram) :
    List Failure :=
  ss.filterMap fun s => Results.failure? (e.outcome blocked wcets s)

/-- The results have the outcome of each subprogram calculated so far, given what they have for its
callees, and nothing for others. The failures are in the order of calculation. -/
structure Calculated (e : Engine) (blocked : Bool) (order : List Nat) (r : Results) : Prop where
  entry : ∀ s, e.program.find? s.id = some s → s.id ∈ order →
    r.entry s.id = .of (e.outcome blocked r.wcets s)
  blank : ∀ id ∉ order, r.entry id = .blank
  failures_eq : r.failures = e.failuresOf blocked r.wcets (order.filterMap e.program.find?)

variable {blocked : Bool} {order : List Nat} {r : Results}

theorem find?_of_mem_filterMap {s : Subprogram} (h : s ∈ order.filterMap e.program.find?) :
    e.program.find? s.id = some s ∧ s.id ∈ order := by
  obtain ⟨id, hid, hs⟩ := List.mem_filterMap.1 h
  obtain rfl := Program.id_of_find? hs
  exact ⟨hs, hid⟩

/-- One step. What is recorded for a subprogram changes nothing for those before it, which do not
call it. -/
theorem Calculated.record (h : e.Calculated blocked order r) (horder : e.program.BottomUp order)
    {s : Subprogram} (hs : e.program.find? s.id = some s) (hnew : s.id ∉ order)
    (hcallees : ∀ c ∈ s.callees, c ∈ order) :
    e.Calculated blocked (order ++ [s.id]) (r.record s.id (e.outcome blocked r.wcets s)) := by
  have ho := subprogram_of_outcome (e := e) blocked r.wcets s
  have hkept : ∀ t : Subprogram, (∀ c ∈ t.callees, c ∈ order) →
      e.outcome blocked (r.record s.id (e.outcome blocked r.wcets s)).wcets t =
        e.outcome blocked r.wcets t := fun t ht =>
    e.outcome_congr blocked fun c hc => congrArg Entry.wcet
      (Results.entry_record_of_ne ho fun hcs : c = s.id => hnew (hcs ▸ ht c hc))
  have hbefore : ∀ t : Subprogram, e.program.find? t.id = some t → t.id ∈ order →
      ∀ c ∈ t.callees, c ∈ order := fun t ht hid c hc => (horder.idxOf_lt ht hid hc).1
  refine ⟨fun t ht hid => ?_, fun id hid => ?_, ?_⟩
  · rcases List.mem_append.1 hid with hid | hid
    · rw [hkept t (hbefore t ht hid),
        Results.entry_record_of_ne ho fun hts : t.id = s.id => hnew (hts ▸ hid)]
      exact h.entry t ht hid
    · rw [List.mem_singleton] at hid
      obtain rfl : t = s := Option.some.inj (ht.symm.trans (hid ▸ hs))
      rw [hkept t hcallees]
      exact Results.entry_record_self ho (h.blank t.id hnew)
  · rw [List.mem_append, List.mem_singleton, not_or] at hid
    rw [Results.entry_record_of_ne ho hid.2, h.blank id hid.1]
  · have hfailures : e.failuresOf blocked (r.record s.id (e.outcome blocked r.wcets s)).wcets
        (order.filterMap e.program.find?) = r.failures := by
      rw [h.failures_eq]
      refine List.filterMap_congr fun t ht => ?_
      obtain ⟨ht, hid⟩ := find?_of_mem_filterMap ht
      rw [hkept t (hbefore t ht hid)]
    unfold failuresOf at hfailures ⊢
    rw [List.filterMap_append, List.filterMap_cons_some hs, List.filterMap_nil,
      List.filterMap_append, hfailures, List.filterMap_cons, hkept s hcallees]
    cases e.outcome blocked r.wcets s with
    | ok solution => exact (List.append_nil _).symm
    | error failure => rfl

/-- All steps, callees first. -/
theorem exists_calculated (e : Engine) (a : Archive) (h : e.program.BottomUp order) :
    ∃ a' r, (order.filterMap e.program.find?).foldl e.advance (a, .empty) = (a', r) ∧
      a'.isBlocked = a.isBlocked ∧ (e.settings.listingDirectory = none → a' = a) ∧
      e.Calculated a.isBlocked order r := by
  induction h with
  | nil =>
    exact ⟨a, .empty, rfl, rfl, fun _ => rfl, fun s _ hs => absurd hs List.not_mem_nil,
      fun _ _ => rfl, rfl⟩
  | @snoc order s horder hs hnew hcallees ih =>
    obtain ⟨a₁, r, hr, hblocked, hkept, hcalculated⟩ := ih
    obtain ⟨a', hblocked', hkept', hadvance⟩ := e.exists_advance_eq a₁ r s
    rw [hblocked] at hblocked' hadvance
    refine ⟨a', _, ?_, hblocked', fun he => (hkept' he).trans (hkept he),
      hcalculated.record horder hs hnew hcallees⟩
    rw [List.filterMap_append, List.foldl_append, hr, List.filterMap_cons_some hs,
      List.filterMap_nil, List.foldl_cons, List.foldl_nil, hadvance]

/-- A run that finds an order records the outcome of every subprogram. -/
theorem exists_run (hp : e.program.Built) (a : Archive) (h : e.program.bottomUp = .ok order) :
    ∃ a' r, e.run a .empty = .ok (a', r) ∧ a'.isBlocked = a.isBlocked ∧
      (e.settings.listingDirectory = none → a' = a) ∧ e.Calculated a.isBlocked order r := by
  obtain ⟨a', r, hr, hrest⟩ := e.exists_calculated a (hp.bottomUp_of_eq_ok h).1
  exact ⟨a', r, by rw [run, h]; exact congrArg Except.ok hr, hrest⟩

/-- The outcome of a subprogram needs only what was recorded for its callees. -/
theorem Calculated.entry_eq_restrict (h : e.Calculated blocked order r) {s : Subprogram}
    (hs : e.program.find? s.id = some s) (hdone : s.id ∈ order) :
    r.entry s.id = .of (e.outcome blocked (r.wcets.restrict s.callees) s) := by
  rw [h.entry s hs hdone, e.outcome_congr blocked fun c hc => (r.wcets.get?_restrict hc).symm]

/-- Two records of the same subprograms agree, by induction along the order of the first. -/
theorem Calculated.entry_eq {e' : Engine} {blocked' : Bool} {order' : List Nat} {r' : Results}
    (h : e.Calculated blocked order r) (h' : e'.Calculated blocked' order' r')
    (hsame : ∀ wcets s, e.outcome blocked wcets s = e'.outcome blocked' wcets s)
    (horder : e.program.BottomUp order) (hfind : ∀ id, e.program.find? id = e'.program.find? id)
    (hmem : ∀ id, id ∈ order ↔ id ∈ order') (id : Nat) : r.entry id = r'.entry id := by
  have hagree : ∀ done, e.program.BottomUp done → (∀ id ∈ done, id ∈ order) →
      ∀ id ∈ done, r.entry id = r'.entry id := by
    intro done hdone
    induction hdone with
    | nil => exact fun _ id hid => absurd hid List.not_mem_nil
    | @snoc done s _ hs _ hcallees ih =>
      intro hsub id hid
      have hsub' : ∀ id ∈ done, id ∈ order := fun id hid => hsub id (List.mem_append_left _ hid)
      rcases List.mem_append.1 hid with hid | hid
      · exact ih hsub' id hid
      · obtain rfl := List.mem_singleton.1 hid
        have hs' := hsub _ (List.mem_append_right _ (List.mem_singleton_self _))
        have htimes : e.outcome blocked r.wcets s = e.outcome blocked r'.wcets s :=
          e.outcome_congr blocked fun c hc => congrArg Entry.wcet (ih hsub' c (hcallees c hc))
        rw [h.entry s hs hs', htimes, hsame]
        exact (h'.entry s ((hfind _).symm.trans hs) ((hmem _).1 hs')).symm
  by_cases hid : id ∈ order
  · exact hagree order horder (fun _ hid => hid) id hid
  · rw [h.blank id hid, h'.blank id (mt (hmem id).2 hid)]

/-- **The order in which subprograms were added does not matter.** Two runs over the same
subprograms record the same times, solutions and failures, and for each subprogram the outcome of
its model alone, given the times recorded for its callees. -/
theorem run_of_perm {e : Engine} {p : Program} (hp : e.program.Built) (hp' : p.Built)
    (hperm : e.program.subprograms.Perm p.subprograms)
    (he : e.settings.listingDirectory = none) {order : List Nat}
    (h : e.program.bottomUp = .ok order) (a a' : Archive) :
    ∃ r r', e.run a .empty = .ok (a, r) ∧ run { e with program := p } a' .empty = .ok (a', r') ∧
      (∀ id, r.wcets.get? id = r'.wcets.get? id) ∧
      (∀ id, r.solutions.get? id = r'.solutions.get? id) ∧ r.failures.Perm r'.failures ∧
      ∀ s ∈ e.program.subprograms,
        r.entry s.id = .ofOutcome s (e.alone (r.wcets.restrict s.callees) s) := by
  obtain ⟨order', h'⟩ := hp.exists_bottomUp_of_perm hp' hperm h
  obtain ⟨a₁, r, hr, -, hkept, hcalc⟩ := exists_run hp a h
  obtain ⟨a₁', r', hr', -, hkept', hcalc'⟩ := exists_run (e := { e with program := p }) hp' a' h'
  obtain rfl := hkept he
  obtain rfl := hkept' he
  obtain ⟨horder, hall⟩ := hp.bottomUp_of_eq_ok h
  obtain ⟨horder', hall'⟩ := hp'.bottomUp_of_eq_ok h'
  have hids := ((hp.perm_of_bottomUp horder hall).trans (hperm.map _)).trans
    (hp'.perm_of_bottomUp horder' hall').symm
  have hsame : ∀ wcets s, e.outcome a₁.isBlocked wcets s =
      outcome { e with program := p } a₁'.isBlocked wcets s := fun wcets s => by
    rw [outcome_eq_alone he, outcome_eq_alone (e := { e with program := p }) he]
    rfl
  have hentry := hcalc.entry_eq hcalc' hsame horder (hp.find?_eq_of_perm hp' hperm)
    fun id => hids.mem_iff
  refine ⟨r, r', hr, hr', fun id => congrArg Entry.wcet (hentry id),
    fun id => congrArg Entry.solution (hentry id),
    perm_of_filter_eq fun id => congrArg Entry.failures (hentry id), fun s hs => ?_⟩
  rw [hcalc.entry_eq_restrict (hp.find?_eq_some_iff.2 ⟨hs, rfl⟩) (hall s hs), outcome_eq_alone he]
  rfl

end Engine

namespace Sample

/-- A subprogram of the sample program. -/
def member (id : Nat) (spec : GraphSpec) : Subprogram :=
  (subprogram id spec).toOption.getD ⟨id, spec.name, .empty spec.name, ⟨1, []⟩⟩

/-- A number that the database has no data for. -/
def strangerId : Nat := 3

/-- The sample program with a subprogram for which there is no data, callers first. -/
def callersFirst : Program :=
  ⟨[member mainId (nestedLoops "main" true), member leafId (leaf "leaf"),
    member strangerId (leaf "stranger")]⟩

/-- The same subprograms in the opposite order. -/
def calleesFirst : Program :=
  ⟨[member strangerId (leaf "stranger"), member leafId (leaf "leaf"),
    member mainId (nestedLoops "main" true)]⟩

theorem built_callersFirst : callersFirst.Built :=
  Program.built_of_ids_nodup _ (by decide)

theorem built_calleesFirst : calleesFirst.Built :=
  Program.built_of_ids_nodup _ (by decide)

/-- Calculates the sample program and the stranger. -/
def engine : Engine :=
  ⟨callersFirst, database.toOption.getD .empty, .default,
    BranchAndBound.solveDoubles 1000 .unlimitedTime⟩

end Sample

namespace Engine

open Sample in
/-- The sample program, where the main subprogram calls the leaf, and a stranger. -/
theorem run_of_perm_calleesFirst : callersFirst.bottomUp = .ok [leafId, mainId, strangerId] ∧
    calleesFirst.bottomUp = .ok [strangerId, leafId, mainId] ∧
    ∃ r r', engine.run .empty .empty = .ok (.empty, r) ∧
      run { engine with program := calleesFirst } .empty .empty = .ok (.empty, r') ∧
      (∀ id, r.wcets.get? id = r'.wcets.get? id) ∧
      (∀ id, r.solutions.get? id = r'.solutions.get? id) ∧ r.failures.Perm r'.failures ∧
      ∀ s ∈ callersFirst.subprograms,
        r.entry s.id = .ofOutcome s (engine.alone (r.wcets.restrict s.callees) s) := by
  have horder : callersFirst.bottomUp = .ok [leafId, mainId, strangerId] := by decide
  have hperm : callersFirst.subprograms.Perm calleesFirst.subprograms :=
    (List.reverse_perm callersFirst.subprograms).symm
  exact ⟨horder, by decide,
    run_of_perm built_callersFirst built_calleesFirst hperm rfl horder .empty .empty⟩

end Engine

end WorstCase
