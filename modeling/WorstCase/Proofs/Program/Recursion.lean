import Mathlib.Data.List.Perm.Subperm
import Mathlib.Logic.Relation
import WorstCase.Analysis.Sample
import WorstCase.Proofs.Program.Order

/-!
# When there is a bottom-up order

A program has a bottom-up order exactly when its subprograms call only each other, and none of them
calls itself through any number of calls (`Program.Built.bottomUp_correct`). Otherwise the traversal
names a call of a subprogram that is not there, or a subprogram on a cycle of calls
(`Program.Fault`).

The traversal knows a cycle by its path: those that led to a subprogram call it, directly or not
(`Program.Leads`), so a call of one of them closes a cycle. A path has no subprogram twice, so it
never gets longer than the program, and the bound on its length is never what ends the traversal
(`Program.Leads.visit_eq`).
-/

namespace WorstCase.Program

open Relation

/-- The subprogram `a` of the program calls `b`. -/
def Calls (p : Program) (a b : Nat) : Prop :=
  ∃ s ∈ p.subprograms, s.id = a ∧ ∃ e ∈ s.graph.edges, e.kind = .inlined b

variable {p : Program}

theorem Calls.of_mem_callees {s : Subprogram} (hs : p.find? s.id = some s) {c : Nat}
    (hc : c ∈ s.callees) : p.Calls s.id c :=
  ⟨s, mem_of_find? hs, rfl, Subprogram.mem_callees_iff.1 hc⟩

theorem Calls.exists_callee {a b : Nat} (hp : p.Built) (h : p.Calls a b) :
    ∃ s, p.find? s.id = some s ∧ s.id = a ∧ b ∈ s.callees := by
  obtain ⟨s, hs, rfl, he⟩ := h
  exact ⟨s, hp.find?_eq_some_iff.2 ⟨hs, rfl⟩, rfl, Subprogram.mem_callees_iff.2 he⟩

theorem find?_eq_none_iff {id : Nat} : p.find? id = none ↔ id ∉ p.subprograms.map (·.id) := by
  simp only [find?, List.find?_eq_none, beq_iff_eq, List.mem_map, not_exists, not_and]

/-! ## Why there is no order -/

/-- What keeps a program from having an order. -/
inductive Fault (p : Program) : ProgramError → Prop
  | unknownCallee {caller callee : Nat} (hcall : p.Calls caller callee)
      (hnone : callee ∉ p.subprograms.map (·.id)) : Fault p (.unknownCallee caller callee)
  | recursive {c : Nat} (hcycle : TransGen p.Calls c c) : Fault p (.recursive c)

/-- The path leads to `s` by calls and has no subprogram twice, and `depth` leaves room for all that
are not on it. -/
structure Leads (p : Program) (depth : Nat) (path : List Nat) (s : Subprogram) : Prop where
  found : p.find? s.id = some s
  nodup : (s.id :: path).Nodup
  known : ∀ id ∈ path, id ∈ p.subprograms.map (·.id)
  calls : ∀ id ∈ path, TransGen p.Calls id s.id
  room : p.subprograms.length ≤ depth + path.length

namespace Leads

variable {depth : Nat} {path : List Nat} {s : Subprogram}

theorem start (hp : p.Built) (hs : s ∈ p.subprograms) (hdepth : p.subprograms.length ≤ depth) :
    p.Leads depth [] s where
  found := hp.find?_eq_some_iff.2 ⟨hs, rfl⟩
  nodup := List.nodup_singleton _
  known _ hid := absurd hid List.not_mem_nil
  calls _ hid := absurd hid List.not_mem_nil
  room := hdepth

/-- A path without a repetition is shorter than the program. -/
theorem length_lt (h : p.Leads depth path s) : path.length < p.subprograms.length := by
  have hsub : s.id :: path ⊆ p.subprograms.map (·.id) :=
    List.cons_subset.2 ⟨List.mem_map_of_mem (mem_of_find? h.found), h.known⟩
  have hle := (List.subperm_of_subset h.nodup hsub).length_le
  rwa [List.length_cons, List.length_map] at hle

theorem depth_pos (h : p.Leads depth path s) : 0 < depth := by
  have hlt := h.length_lt
  have hroom := h.room
  omega

/-- One call further. -/
theorem step (h : p.Leads (depth + 1) path s) {s' : Subprogram} {c : Nat} (hc : c ∈ s.callees)
    (hs' : p.find? c = some s') (hout : c ∉ s.id :: path) : p.Leads depth (s.id :: path) s' := by
  obtain rfl := id_of_find? hs'
  have hcall := Calls.of_mem_callees h.found hc
  refine ⟨hs', List.nodup_cons.2 ⟨hout, h.nodup⟩, ?_, ?_, ?_⟩
  · exact List.forall_mem_cons.2 ⟨List.mem_map_of_mem (mem_of_find? h.found), h.known⟩
  · exact List.forall_mem_cons.2 ⟨.single hcall, fun id hid => (h.calls id hid).tail hcall⟩
  · have hroom := h.room
    rw [List.length_cons]
    omega

/-- A call of a subprogram on the path closes a cycle. -/
theorem cycle (h : p.Leads depth path s) {c : Nat} (hc : c ∈ s.callees)
    (hin : c ∈ s.id :: path) : TransGen p.Calls c c := by
  have hcall := Calls.of_mem_callees h.found hc
  rcases List.mem_cons.1 hin with rfl | hin
  · exact .single hcall
  · exact (h.calls c hin).tail hcall

/-- A visit that fails has found a fault. -/
theorem fault_of_visit (h : p.Leads depth path s) {order : List Nat} {error : ProgramError}
    (herror : p.visit depth path s order = .error error) : p.Fault error := by
  induction depth generalizing path s order with
  | zero => exact absurd h.depth_pos (Nat.lt_irrefl 0)
  | succ depth ih =>
    simp only [visit] at herror
    split at herror
    · next hfold =>
      cases herror
      obtain ⟨c, hc, order', hcallee⟩ := exists_error_of_foldlM hfold
      unfold visitCallee at hcallee
      split at hcallee
      · next hnone =>
        cases hcallee
        exact .unknownCallee (Calls.of_mem_callees h.found hc) (find?_eq_none_iff.1 hnone)
      · next s' hs' =>
        split at hcallee
        · next hin =>
          cases hcallee
          exact .recursive (h.cycle hc (List.contains_iff_mem.1 hin))
        · next hout =>
          split at hcallee
          · cases hcallee
          · exact ih (h.step hc hs' (mt List.contains_iff_mem.2 hout)) hcallee
    · cases herror

/-- With more room the visit is the same. -/
theorem visit_eq (h : p.Leads depth path s) {depth' : Nat} (hle : depth ≤ depth')
    (order : List Nat) : p.visit depth' path s order = p.visit depth path s order := by
  induction depth generalizing path s order depth' with
  | zero => exact absurd h.depth_pos (Nat.lt_irrefl 0)
  | succ depth ih =>
    obtain ⟨depth', rfl⟩ : ∃ k, depth' = k + 1 := ⟨depth' - 1, by omega⟩
    have hcallee : ∀ c ∈ s.callees, ∀ order,
        visitCallee p (p.visit depth' (s.id :: path)) (s.id :: path) s.id order c =
          visitCallee p (p.visit depth (s.id :: path)) (s.id :: path) s.id order c := by
      intro c hc order
      unfold visitCallee
      split
      · rfl
      · next s' hs' =>
        split
        · rfl
        · next hout =>
          rw [ih (h.step hc hs' (mt List.contains_iff_mem.2 hout)) (Nat.le_of_succ_le_succ hle)]
    simp only [visit, foldlM_congr hcallee order]

end Leads

/-! ## What a visit adds -/

/-- The order goes on from `order`, with what can be reached from the subprograms `roots` by
calls. -/
structure Continues (p : Program) (roots : List Nat) (order order' : List Nat) : Prop where
  isPrefix : order <+: order'
  reached : ∀ id ∈ order', id ∉ order → ∃ r ∈ roots, ReflTransGen p.Calls r id

namespace Continues

variable {roots roots' order order' order'' : List Nat}

theorem refl (roots order : List Nat) : p.Continues roots order order :=
  ⟨List.prefix_rfl, fun _ hid hnot => absurd hid hnot⟩

theorem trans (h : p.Continues roots order order') (h' : p.Continues roots order' order'') :
    p.Continues roots order order'' := by
  refine ⟨h.isPrefix.trans h'.isPrefix, fun id hid hnot => ?_⟩
  by_cases hid' : id ∈ order'
  · exact h.reached id hid' hnot
  · exact h'.reached id hid hid'

/-- What continues from called subprograms continues from their callers. -/
theorem of_reached (h : p.Continues roots order order')
    (hroots : ∀ r ∈ roots, ∃ r' ∈ roots', ReflTransGen p.Calls r' r) :
    p.Continues roots' order order' := by
  refine ⟨h.isPrefix, fun id hid hnot => ?_⟩
  obtain ⟨r, hr, hreach⟩ := h.reached id hid hnot
  obtain ⟨r', hr', hreach'⟩ := hroots r hr
  exact ⟨r', hr', hreach'.trans hreach⟩

theorem snoc (h : p.Continues roots order order') {id : Nat} (hid : id ∈ roots) :
    p.Continues roots order (order' ++ [id]) := by
  refine ⟨h.isPrefix.trans (List.prefix_append _ _), fun id' hid' hnot => ?_⟩
  rcases List.mem_append.1 hid' with hid' | hid'
  · exact h.reached id' hid' hnot
  · rw [List.mem_singleton.1 hid']
    exact ⟨id, hid, .refl⟩

end Continues

/-- A visit adds the subprogram and what it calls, directly or not. -/
theorem continues_visit {depth : Nat} {path order order' : List Nat} {s : Subprogram}
    (hs : p.find? s.id = some s) (h : p.visit depth path s order = .ok order') :
    p.Continues [s.id] order order' := by
  induction depth generalizing path s order order' with
  | zero => cases h
  | succ depth ih =>
    simp only [visit] at h
    split at h
    · cases h
    · next order₁ hfold =>
      cases h
      suffices hcallees : p.Continues [s.id] order order₁ from
        hcallees.snoc (List.mem_singleton_self _)
      refine foldlM_ok_induction (P := fun _ o => p.Continues [s.id] order o) (.refl _ _) ?_ hfold
      intro done c o o' hc hdone hstep
      refine hdone.trans ?_
      unfold visitCallee at hstep
      split at hstep
      · cases hstep
      · next s' hs' =>
        split at hstep
        · cases hstep
        · split at hstep
          · cases hstep
            exact .refl _ _
          · obtain rfl := id_of_find? hs'
            refine (ih hs' hstep).of_reached fun r hr => ⟨s.id, List.mem_singleton_self _, ?_⟩
            rw [List.mem_singleton.1 hr]
            exact .single (Calls.of_mem_callees hs hc)

theorem continues_visitRoot (hp : p.Built) {s : Subprogram} (hs : s ∈ p.subprograms)
    {order order' : List Nat} (h : p.visitRoot order s = .ok order') :
    p.Continues [s.id] order order' := by
  unfold visitRoot at h
  split at h
  · cases h
    exact .refl _ _
  · exact continues_visit (hp.find?_eq_some_iff.2 ⟨hs, rfl⟩) h

/-- Visiting some of the subprograms adds them and what they call, directly or not. -/
theorem continues_foldlM (hp : p.Built) {ss : List Subprogram} (hss : ∀ s ∈ ss, s ∈ p.subprograms)
    {order order' : List Nat} (h : ss.foldlM (visitRoot p) order = .ok order') :
    p.Continues (ss.map (·.id)) order order' := by
  refine foldlM_ok_induction (P := fun _ o => p.Continues (ss.map (·.id)) order o) (.refl _ _) ?_ h
  intro done s o o' hs hdone hstep
  refine hdone.trans ((continues_visitRoot hp (hss s hs) hstep).of_reached fun r hr => ?_)
  rw [List.mem_singleton.1 hr]
  exact ⟨s.id, List.mem_map_of_mem hs, .refl⟩

/-! ## The order -/

/-- What an order of the program promises. -/
structure Ordered (p : Program) (order : List Nat) : Prop where
  perm : order.Perm (p.subprograms.map (·.id))
  nodup : order.Nodup
  callee_first : ∀ a b, p.Calls a b → order.idxOf b < order.idxOf a
  /-- Only what is called is placed before a subprogram that was added earlier. -/
  moved : ∀ (i j : Nat) (x y : Subprogram), p.subprograms[i]? = some x →
    p.subprograms[j]? = some y → i < j → order.idxOf y.id < order.idxOf x.id →
    ∃ (k : Nat) (z : Subprogram), k ≤ i ∧ p.subprograms[k]? = some z ∧ TransGen p.Calls z.id y.id

/-- Along calls one comes to earlier and earlier subprograms. -/
theorem idxOf_lt_of_transGen {order : List Nat}
    (h : ∀ a b, p.Calls a b → order.idxOf b < order.idxOf a) {a b : Nat}
    (hab : TransGen p.Calls a b) : order.idxOf b < order.idxOf a := by
  induction hab with
  | single hcall => exact h _ _ hcall
  | tail _ hcall ih => exact Nat.lt_trans (h _ _ hcall) ih

/-- What has been placed once the subprograms up to `i` have been visited is at the front of the
order, and those subprograms call it. -/
theorem Built.moved_of_bottomUp (hp : p.Built) {order : List Nat} (h : p.bottomUp = .ok order)
    {i j : Nat} {x y : Subprogram} (hx : p.subprograms[i]? = some x)
    (hy : p.subprograms[j]? = some y) (hij : i < j)
    (hlt : order.idxOf y.id < order.idxOf x.id) :
    ∃ (k : Nat) (z : Subprogram), k ≤ i ∧ p.subprograms[k]? = some z ∧
      TransGen p.Calls z.id y.id := by
  have hsplit := List.take_append_drop (i + 1) p.subprograms
  have hfold : (p.subprograms.take (i + 1) ++ p.subprograms.drop (i + 1)).foldlM (visitRoot p) [] =
      .ok order := by
    rw [hsplit]
    exact h
  rw [List.foldlM_append] at hfold
  obtain ⟨front, hfront, hrest⟩ := bind_ok hfold
  have htake : ∀ s ∈ p.subprograms.take (i + 1), s ∈ p.subprograms := fun s hs =>
    List.mem_of_mem_take hs
  have hdrop : ∀ s ∈ p.subprograms.drop (i + 1), s ∈ p.subprograms := fun s hs =>
    List.mem_of_mem_drop hs
  have hxfront : x.id ∈ front := by
    refine (hp.bottomUp_of_foldlM htake hfront).2 x (List.mem_iff_getElem?.2 ⟨i, ?_⟩)
    rw [List.getElem?_take_of_lt (Nat.lt_succ_self i), hx]
  obtain ⟨back, rfl⟩ := (continues_foldlM hp hdrop hrest).isPrefix
  have hyfront : y.id ∈ front := by
    by_contra hout
    rw [List.idxOf_append_of_mem hxfront, List.idxOf_append_of_notMem hout] at hlt
    have hle := List.idxOf_le_length (l := front) (a := x.id)
    omega
  obtain ⟨r, hr, hreach⟩ :=
    (continues_foldlM hp htake hfront).reached y.id hyfront List.not_mem_nil
  obtain ⟨z, hz, rfl⟩ := List.mem_map.1 hr
  obtain ⟨k, hk⟩ := List.mem_iff_getElem?.1 hz
  rw [List.getElem?_take] at hk
  split at hk
  · next hki =>
    refine ⟨k, z, Nat.le_of_lt_succ hki, hk, ?_⟩
    -- `y` was added later than `z`, so they differ
    refine (reflTransGen_iff_eq_or_transGen.1 hreach).resolve_left fun hyz => ?_
    refine List.nodup_iff_getElem?_ne_getElem?.1 hp.ids_nodup k j (by omega) ?_ ?_
    · rw [List.length_map]
      exact (List.getElem?_eq_some_iff.1 hy).1
    · rw [List.getElem?_map, List.getElem?_map, hk, hy, Option.map_some, Option.map_some, hyz]
  · cases hk

/-- An order that is returned is bottom-up. -/
theorem Built.ordered_of_eq_ok (hp : p.Built) {order : List Nat} (h : p.bottomUp = .ok order) :
    p.Ordered order := by
  obtain ⟨horder, hall⟩ := hp.bottomUp_of_eq_ok h
  refine ⟨hp.perm_of_bottomUp horder hall, horder.nodup, fun a b hcall => ?_,
    fun i j x y hx hy hij hlt => hp.moved_of_bottomUp h hx hy hij hlt⟩
  obtain ⟨s, hs, rfl, hb⟩ := hcall.exists_callee hp
  exact (horder.idxOf_lt hs (hall s (mem_of_find? hs)) hb).2

/-- An error names a call of what is missing, or a subprogram that comes to call itself. -/
theorem Built.fault_of_eq_error (hp : p.Built) {error : ProgramError}
    (h : p.bottomUp = .error error) : p.Fault error := by
  obtain ⟨s, hs, order, hstep⟩ := exists_error_of_foldlM h
  unfold visitRoot at hstep
  split at hstep
  · cases hstep
  · exact (Leads.start hp hs (Nat.le_refl _)).fault_of_visit hstep

/-- The callees of an order are in it, and callees of callees never lead back. -/
theorem Ordered.not_fault {order : List Nat} (h : p.Ordered order) (error : ProgramError) :
    ¬ p.Fault error := by
  rintro (⟨hcall, hnone⟩ | hcycle)
  · have hlt := h.callee_first _ _ hcall
    refine hnone (h.perm.mem_iff.1 (List.idxOf_lt_length_iff.1 ?_))
    exact Nat.lt_of_lt_of_le hlt List.idxOf_le_length
  · exact Nat.lt_irrefl _ (idxOf_lt_of_transGen h.callee_first hcycle)

/-- The order that is found by visits nested at most `depth` deep. -/
def bottomUpWithin (p : Program) (depth : Nat) : Except ProgramError (List Nat) :=
  p.subprograms.foldlM
    (fun order s => if order.contains s.id then .ok order else p.visit depth [] s order) []

/-- As deep as the program has subprograms is deep enough. -/
theorem Built.bottomUpWithin_eq (hp : p.Built) {depth : Nat}
    (hdepth : p.subprograms.length ≤ depth) : p.bottomUpWithin depth = p.bottomUp := by
  refine foldlM_congr (fun s hs order => ?_) []
  rw [visitRoot, (Leads.start hp hs (Nat.le_refl _)).visit_eq hdepth]

/-- **Bottom-up orders are found whenever there are any.** The traversal ends by itself, with an
order exactly when subprograms call only each other and nothing calls itself through any number of
calls. -/
theorem Built.bottomUp_correct (hp : p.Built) :
    ((∃ order, p.bottomUp = .ok order) ↔
      (∀ a b, p.Calls a b → b ∈ p.subprograms.map (·.id)) ∧ ∀ c, ¬ TransGen p.Calls c c) ∧
    (∀ order, p.bottomUp = .ok order → p.Ordered order) ∧
    (∀ error, p.bottomUp = .error error → p.Fault error) ∧
    ∀ depth, p.subprograms.length ≤ depth → p.bottomUpWithin depth = p.bottomUp := by
  refine ⟨⟨?_, ?_⟩, fun order h => hp.ordered_of_eq_ok h, fun error h => hp.fault_of_eq_error h,
    fun depth hdepth => hp.bottomUpWithin_eq hdepth⟩
  · rintro ⟨order, h⟩
    have hnone := (hp.ordered_of_eq_ok h).not_fault
    refine ⟨fun a b hcall => ?_, fun c hcycle => hnone _ (.recursive hcycle)⟩
    by_contra hout
    exact hnone _ (.unknownCallee hcall hout)
  · rintro ⟨hknown, hacyclic⟩
    cases h : p.bottomUp with
    | ok order => exact ⟨order, rfl⟩
    | error error =>
      exfalso
      cases hp.fault_of_eq_error h with
      | unknownCallee hcall hnone => exact hnone (hknown _ _ hcall)
      | recursive hcycle => exact hacyclic _ hcycle

end WorstCase.Program

namespace WorstCase.Sample

/-- Two vertices, with an edge for each callee. -/
def calls (callees : List Nat) : GraphSpec where
  name := "calls"
  vertices := [1, 2]
  edges := numbered ((1, 2, .trace) :: callees.map fun c => (1, 2, .inlined c))
  entry? := some 1

/-- The program with the given callees for each number. -/
def callers (callees : List (Nat × List Nat)) : Program :=
  ⟨callees.filterMap fun (id, cs) => (subprogram id (calls cs)).toOption⟩

/-- A callee shared between two callers, one of which calls the other. -/
def diamond : Program :=
  callers [(1, [2, 3]), (2, [3]), (3, []), (4, [])]

/-- A cycle that is entered from outside. -/
def ring : Program :=
  callers [(1, [2]), (2, [3]), (3, [4]), (4, [2])]

theorem built_diamond : diamond.Built :=
  Program.built_of_ids_nodup _ (by decide)

theorem built_ring : ring.Built :=
  Program.built_of_ids_nodup _ (by decide)

end WorstCase.Sample

namespace WorstCase.Program

open Sample Relation in
/-- The diamond is ordered from its bottom, and the ring is found to be recursive. -/
theorem bottomUp_correct_diamond : diamond.Built ∧ diamond.bottomUp = .ok [3, 2, 1, 4] ∧
    diamond.Ordered [3, 2, 1, 4] ∧ (∀ c, ¬ TransGen diamond.Calls c c) ∧
    ring.Built ∧ ring.bottomUp = .error (.recursive 2) ∧ TransGen ring.Calls 2 2 := by
  have hdiamond : diamond.bottomUp = .ok [3, 2, 1, 4] := by decide
  have hring : ring.bottomUp = .error (.recursive 2) := by decide
  obtain ⟨hiff, hordered, -, -⟩ := built_diamond.bottomUp_correct
  obtain ⟨-, -, hfault, -⟩ := built_ring.bottomUp_correct
  refine ⟨built_diamond, hdiamond, hordered _ hdiamond, (hiff.1 ⟨_, hdiamond⟩).2, built_ring, hring,
    ?_⟩
  cases hfault _ hring with
  | recursive hcycle => exact hcycle

end WorstCase.Program
