import WorstCase.Proofs.Analysis.Described
import WorstCase.Proofs.DepthFirst.Tree

/-!
# Depth-first search as a recursion

The textbook procedure numbers a vertex, calls itself along every edge to a vertex that has no
number yet, and gives the vertex its second number when all its edges have been looked at
(`Numbering.visit`). It is given room for a number of calls inside each other, and has no outcome
when that is too little; room for one call for each vertex is always enough.

The search with a stack does the same. A frame of the stack is a call that waits for another one,
and the destinations still pending in it are the edges that the call has not looked at. So from a
frame with pending destinations the search takes steps that end with the same frame and nothing
pending, and on the way it notes what the calls note (`Search.steps_pending`). The whole search is
the call for the root (`DepthFirstTree.search_eq_visit`).
-/

namespace WorstCase

open Relation

/-- What the recursive procedure has written down. -/
structure Numbering where
  preOrder : List Nat
  postOrder : List Nat
  parent : Nat → Option Nat
  backTargets : Nat → List Nat
  height : Nat

namespace Numbering

def empty : Numbering := ⟨[], [], fun _ => none, fun _ => [], 0⟩

/-- The number given on entry, counted from 1; 0 when there is none yet. -/
def pre (s : Numbering) (v : Nat) : Nat :=
  Search.position s.preOrder v

/-- The number given on exit, counted from 1; 0 when there is none yet. -/
def post (s : Numbering) (v : Nat) : Nat :=
  Search.position s.postOrder v

def number (s : Numbering) (v : Nat) : Numbering :=
  { s with preOrder := s.preOrder ++ [v] }

def adopt (s : Numbering) (v w : Nat) : Numbering :=
  { s with parent := fun x => if x = w then some v else s.parent x }

def record (s : Numbering) (v w : Nat) : Numbering :=
  if w ∈ s.backTargets v then s
  else { s with backTargets := fun x => if x = v then s.backTargets v ++ [w] else s.backTargets x }

def finish (s : Numbering) (depth v : Nat) : Numbering :=
  { s with postOrder := s.postOrder ++ [v], height := max s.height depth }

/-- The call for `v` when `depth - 1` other calls are open, with room for `calls` calls inside each
other. -/
def visit (g : FlowGraph) : (calls depth v : Nat) → Numbering → Option Numbering
  | 0, _, _, _ => none
  | calls + 1, depth, v, s => do
    let s ← (g.successorEdges v).foldlM
      (fun s e =>
        if s.pre e.destination = 0 then
          visit g calls (depth + 1) e.destination (s.adopt v e.destination)
        else if s.pre v < s.pre e.destination then some s
        else if s.post e.destination = 0 then some (s.record v e.destination)
        else some s)
      (s.number v)
    some (s.finish depth v)

/-- What the call for `v` does about an edge to `w`, with room for `calls` calls inside it. -/
def look (g : FlowGraph) (calls depth v : Nat) (s : Numbering) (w : Nat) : Option Numbering :=
  if s.pre w = 0 then visit g calls (depth + 1) w (s.adopt v w)
  else if s.pre v < s.pre w then some s
  else if s.post w = 0 then some (s.record v w)
  else some s

/-- A visit numbers the vertex, looks at the vertices that its edges lead to and finishes it. -/
theorem visit_succ (g : FlowGraph) (calls depth v : Nat) (s : Numbering) :
    visit g (calls + 1) depth v s =
      ((Search.destinations g v).foldlM (look g calls depth v) (s.number v)).map
        (·.finish depth v) := by
  rw [visit, Search.destinations, List.foldlM_map]
  exact Option.map_eq_bind.symm

end Numbering

namespace Search

/-- What the search has noted, as the recursive procedure writes it down. -/
def numbering (s : Search) : Numbering where
  preOrder := s.preOrder
  postOrder := s.postOrder
  parent v := s.parents.lookup v
  backTargets v := s.backEdges.filterMap fun (source, target) =>
    if source = v then some target else none
  height := s.height

theorem mem_numbering_backTargets {s : Search} {v w : Nat} :
    w ∈ s.numbering.backTargets v ↔ (v, w) ∈ s.backEdges :=
  DepthFirstTree.mem_targets_iff

/-! ## Each step notes what the procedure writes down -/

/-- Coming to a vertex is adopting it and giving it the next number. -/
theorem numbering_enter (g : FlowGraph) {s : Search} {v w : Nat} (stack : List Frame)
    (hw : s.parents.lookup w = none) :
    (s.enter g v w stack).numbering = (s.numbering.adopt v w).number w := by
  simp only [numbering, enter, Numbering.adopt, Numbering.number, Numbering.mk.injEq, true_and,
    and_true]
  funext x
  rw [List.lookup_append]
  by_cases hx : x = w
  · subst hx
    simp [hw]
  · simp [hx]

/-- Noting a back edge with the stack is recording it in the recursion. -/
theorem numbering_noteBackEdge (s : Search) (v w : Nat) :
    (s.noteBackEdge v w).numbering = s.numbering.record v w := by
  unfold noteBackEdge Numbering.record
  simp only [List.contains_iff_mem, mem_numbering_backTargets]
  split
  · rfl
  · simp only [numbering, List.filterMap_append, Numbering.mk.injEq, true_and, and_true]
    funext x
    by_cases hx : x = v
    · subst hx
      simp
    · simp [hx, Ne.symm hx]

/-- The procedure looks at a vertex that has a number as the search looks back. -/
theorem look_numbering (g : FlowGraph) {root : Nat} {s : Search} (h : Inv g root s)
    (calls depth : Nat) {v w : Nat} (hw : w ∈ s.preOrder) :
    s.numbering.look g calls depth v w = some (s.lookBack v w).numbering := by
  have hpre : ∀ x, s.numbering.pre x = number s.preNumbers x := fun x => (h.preNumber_eq x).symm
  have hpost : ∀ x, s.numbering.post x = number s.postNumbers x := fun x =>
    (h.postNumber_eq x).symm
  have hnew : ¬ number s.preNumbers w = 0 := fun hzero => h.preNumber_eq_zero_iff.1 hzero hw
  simp only [Numbering.look, lookBack, hpre, hpost, if_neg hnew]
  split
  · rfl
  · split
    · rw [numbering_noteBackEdge]
    · rfl

/-! ## Runs of steps -/

/-- `s'` comes from `s` by steps that have something to do. -/
def Steps (g : FlowGraph) : Search → Search → Prop :=
  ReflTransGen fun s s' => s.stack ≠ [] ∧ s' = s.step g

variable {g : FlowGraph} {root : Nat}

theorem Steps.inv (hg : g.WellFormed) {s s' : Search} (h : Inv g root s) (hs : Steps g s s') :
    Inv g root s' := by
  induction hs with
  | refl => exact h
  | tail _ hstep ih => exact hstep.2 ▸ ih.step hg

/-- Steps use up what is left to do. -/
theorem Steps.remaining_le (hg : g.WellFormed) {s s' : Search} (h : Inv g root s)
    (hs : Steps g s s') : remaining g s' ≤ remaining g s := by
  induction hs with
  | refl => exact Nat.le_refl _
  | tail hs hstep ih =>
    obtain ⟨hne, rfl⟩ := hstep
    have := remaining_step hg (Steps.inv hg h hs) hne
    omega

/-- A run with enough steps ends where steps lead to an empty stack. -/
theorem Steps.run_eq (hg : g.WellFormed) {s s' : Search} (h : Inv g root s) (hs : Steps g s s')
    (hnil : s'.stack = []) {n : Nat} (hn : remaining g s ≤ n) : s.run g n = s' := by
  induction hs using ReflTransGen.head_induction_on generalizing n with
  | refl =>
    cases n with
    | zero => rfl
    | succ n => rw [run, hnil, List.isEmpty_nil, if_pos rfl]
  | head hstep _ ih =>
    obtain ⟨hne, rfl⟩ := hstep
    have hrem := remaining_step hg h hne
    obtain ⟨m, rfl⟩ : ∃ m, n = m + 1 := ⟨n - 1, by omega⟩
    rw [run, if_neg (mt List.isEmpty_iff.1 hne)]
    exact ih (h.step hg) (by omega)

/-- How many vertices have no number yet. -/
def unseen (g : FlowGraph) (s : Search) : Nat :=
  (g.vertexIds.filter fun v => !s.preOrder.contains v).length

/-- One more vertex that has been seen is one less to be seen. -/
theorem length_filter_notMem_append {l seen : List Nat} {w : Nat} (hl : l.Nodup) (hw : w ∈ l)
    (hws : w ∉ seen) : (l.filter fun v => !seen.contains v).length =
      (l.filter fun v => !(seen ++ [w]).contains v).length + 1 := by
  have hsum := sum_filter_notMem_append (fun _ => 1) hl hw hws
  simpa only [List.map_const', List.sum_replicate_nat, Nat.mul_one] using hsum

/-- Coming to a vertex makes one less of those that have not been seen. -/
theorem unseen_enter (hg : g.WellFormed) {s : Search} {v w : Nat} {stack : List Frame}
    (hw : w ∈ g.vertexIds) (hws : w ∉ s.preOrder) :
    unseen g s = unseen g (s.enter g v w stack) + 1 :=
  length_filter_notMem_append hg.vertexIds_nodup hw hws

/-- No step forgets a vertex that it has seen. -/
theorem unseen_step_le (hg : g.WellFormed) {s : Search} (h : Inv g root s) :
    unseen g (s.step g) ≤ unseen g s := by
  rcases h.step_cases with ⟨-, he⟩ | ⟨v, rest, -, he⟩ | ⟨v, w, pending, rest, hs, hw, he⟩ |
    ⟨v, w, pending, rest, -, -, he⟩
  · exact Nat.le_of_eq (congrArg (unseen g) he)
  · have hunseen : unseen g (s.step g) = unseen g (s.leave v rest) := congrArg (unseen g) he
    exact Nat.le_of_eq hunseen
  · have hunseen : unseen g s = unseen g (s.step g) + 1 := by
      rw [he]
      exact unseen_enter hg (pending_mem hg h hs) hw
    omega
  · have hunseen : unseen g (s.step g) = unseen g s := by
      simp only [he, unseen, lookBack_preOrder]
    exact Nat.le_of_eq hunseen

theorem Steps.unseen_le (hg : g.WellFormed) {s s' : Search} (h : Inv g root s)
    (hs : Steps g s s') : unseen g s' ≤ unseen g s := by
  induction hs with
  | refl => exact Nat.le_refl _
  | tail hs hstep ih =>
    obtain ⟨-, rfl⟩ := hstep
    exact Nat.le_trans (unseen_step_le hg (Steps.inv hg h hs)) ih

/-- A vertex that has not been reached has no parent yet. -/
theorem lookup_parents_eq_none {s : Search} (h : Inv g root s) {w : Nat} (hw : w ∉ s.preOrder) :
    s.parents.lookup w = none := by
  cases hl : s.parents.lookup w with
  | none => rfl
  | some p => exact absurd (h.child_reached (mem_of_lookup hl)) hw

theorem step_eq_leave {s : Search} {v : Nat} {rest : List Frame}
    (hs : s.stack = ⟨v, []⟩ :: rest) : s.step g = s.leave v rest := by
  simp only [step, hs]

/-- **A frame is a waiting call.** The search looks at the pending destinations of the current
vertex as the call for it does, if there is room for a call for each vertex without a number. -/
theorem steps_pending (hg : g.WellFormed) {s : Search} {v : Nat} {pending : List Nat}
    {rest : List Frame} (h : Inv g root s) (hs : s.stack = ⟨v, pending⟩ :: rest) {calls : Nat}
    (hcalls : unseen g s ≤ calls) :
    ∃ s', Steps g s s' ∧ s'.stack = ⟨v, []⟩ :: rest ∧
      pending.foldlM (Numbering.look g calls (rest.length + 1) v) s.numbering =
        some s'.numbering := by
  -- the search as a whole gets shorter with every step, also over the calls made in between
  induction hn : remaining g s using Nat.strongRecOn generalizing s v pending rest calls with
  | _ n ih =>
    subst hn
    have hne : s.stack ≠ [] := by simp [hs]
    have hrem := remaining_step hg h hne
    have hone : Steps g s (s.step g) := ReflTransGen.single ⟨hne, rfl⟩
    have hseen := Nat.le_trans (unseen_step_le hg h) hcalls
    rcases h.step_cases with
      ⟨he, -⟩ | ⟨v', rest', he, -⟩ | ⟨v', w, pending', rest', he, hw, hstep⟩ |
      ⟨v', w, pending', rest', he, hw, hstep⟩ <;> rw [hs] at he <;> cases he
    · exact ⟨s, ReflTransGen.refl, hs, rfl⟩
    · -- the call for `w`, its exit, and the destinations behind `w`
      have hunseen : unseen g s = unseen g (s.step g) + 1 := by
        rw [hstep]
        exact unseen_enter hg (pending_mem hg h hs) hw
      obtain ⟨inner, rfl⟩ : ∃ inner, calls = inner + 1 := ⟨calls - 1, by omega⟩
      have hinner : unseen g (s.step g) ≤ inner := by omega
      obtain ⟨s₁, h₁, hs₁, hf₁⟩ := ih _ (by omega) (h.step hg) (by rw [hstep]; rfl) hinner rfl
      have hi₁ := h₁.inv hg (h.step hg)
      have hne₁ : s₁.stack ≠ [] := by simp [hs₁]
      have hle₁ := h₁.remaining_le hg (h.step hg)
      have hrem₁ := remaining_step hg hi₁ hne₁
      have hseen₁ := Nat.le_trans (unseen_step_le hg hi₁) (h₁.unseen_le hg (h.step hg))
      have hleave := step_eq_leave (g := g) hs₁
      obtain ⟨s₂, h₂, hs₂, hf₂⟩ :=
        ih _ (by omega) (hi₁.step hg) (by rw [hleave]; rfl) (Nat.le_trans hseen₁ hseen) rfl
      refine ⟨s₂, (hone.trans h₁).trans (ReflTransGen.head ⟨hne₁, rfl⟩ h₂), hs₂, ?_⟩
      have hcall : s.numbering.look g (inner + 1) (rest.length + 1) v w =
          some (s₁.step g).numbering := by
        have hzero : s.numbering.pre w = 0 := position_eq_zero_iff.2 hw
        rw [hstep, numbering_enter g _ (lookup_parents_eq_none h hw), List.length_cons] at hf₁
        rw [Numbering.look, if_pos hzero, Numbering.visit_succ, hf₁, hleave]
        rfl
      rw [List.foldlM_cons, hcall]
      exact hf₂
    · obtain ⟨s', h', hs', hf'⟩ := ih _ (by omega) (h.step hg) (by rw [hstep]) hseen rfl
      refine ⟨s', hone.trans h', hs', ?_⟩
      rw [List.foldlM_cons, look_numbering g h _ _ hw]
      rw [hstep] at hf'
      exact hf'

/-- The call for the root ends, and the search ends with what it has written down. -/
theorem visit_root (hg : g.WellFormed) (hroot : root ∈ g.vertexIds) {calls : Nat}
    (hcalls : g.vertices.length ≤ calls) : Numbering.visit g calls 1 root .empty =
      some ((start g root).run g (DepthFirstTree.stepBound g)).numbering := by
  have hinv := inv_start hroot
  have hunseen : g.vertices.length = unseen g (start g root) + 1 := by
    have hlen := length_filter_notMem_append hg.vertexIds_nodup hroot
      (List.not_mem_nil : root ∉ [])
    simp only [List.contains_nil, Bool.not_false, List.filter_true] at hlen
    exact (List.length_map _).symm.trans hlen
  obtain ⟨inner, rfl⟩ : ∃ inner, calls = inner + 1 := ⟨calls - 1, by omega⟩
  have hinner : unseen g (start g root) ≤ inner := by omega
  obtain ⟨s, hsteps, hs, hf⟩ := steps_pending hg hinv rfl hinner
  have hne : s.stack ≠ [] := by simp [hs]
  have hall : Steps g (start g root) (s.leave root []) :=
    hsteps.tail ⟨hne, (step_eq_leave hs).symm⟩
  rw [hall.run_eq hg hinv rfl (Nat.le_of_eq (remaining_start hg hroot)), Numbering.visit_succ]
  have hstart : (start g root).numbering = Numbering.empty.number root := rfl
  rw [hstart] at hf
  exact congrArg (Option.map _) hf

/-! ## Back edges are noted once -/

theorem nodup_backEdges_step {s : Search} (h : s.backEdges.Nodup) : (s.step g).backEdges.Nodup := by
  rcases step_cases g s with ⟨-, he⟩ | ⟨v, rest, -, he⟩ | ⟨v, w, pending, rest, -, -, he⟩ |
    ⟨v, w, pending, rest, -, -, he⟩ <;> rw [he]
  · exact h
  · exact h
  · exact h
  · unfold lookBack noteBackEdge
    split
    · exact h
    · split
      · split
        · exact h
        · next hq =>
          rw [List.contains_iff_mem] at hq
          have hnew := h.concat hq
          rwa [List.concat_eq_append] at hnew
      · exact h

/-- A search notes no back edge twice. -/
theorem nodup_backEdges_run (steps : Nat) {s : Search} (h : s.backEdges.Nodup) :
    (s.run g steps).backEdges.Nodup := by
  induction steps generalizing s with
  | zero => exact h
  | succ steps ih =>
    unfold run
    split
    · exact h
    · exact ih (nodup_backEdges_step h)

end Search

namespace DepthFirstTree

theorem nodup_backTargets {t : DepthFirstTree} (h : t.backEdges.Nodup) (v : Nat) :
    (t.backTargets v).Nodup := by
  refine h.filterMap ?_
  rintro ⟨u, w⟩ ⟨u', w'⟩ x hx hx'
  simp only [Option.mem_def, Option.ite_none_right_eq_some, Option.some.injEq] at hx hx'
  obtain ⟨rfl, rfl⟩ := hx
  obtain ⟨rfl, rfl⟩ := hx'
  rfl

/-- **The search is the recursive procedure.** From every vertex of a graph the recursive procedure
ends with no more calls inside each other than there are vertices, and the search gives the same
orders, numbers, parents, back edges and height. -/
theorem search_eq_visit {g : FlowGraph} (hg : g.Built) {root : Nat} (hroot : root ∈ g.vertexIds) :
    ∃ t s, search g root = .ok t ∧
      (∀ calls, g.vertices.length ≤ calls → Numbering.visit g calls 1 root .empty = some s) ∧
      t.root = root ∧ t.preOrder = s.preOrder ∧ t.postOrder = s.postOrder ∧
      (∀ v ∈ g.vertexIds, t.preIndex? v = .ok (s.pre v) ∧ t.postIndex? v = .ok (s.post v)) ∧
      (∀ v, t.parent? v = s.parent v) ∧
      (∀ v, t.backTargets v = s.backTargets v ∧ (t.backTargets v).Nodup) ∧ t.height = s.height := by
  have hnodup := Search.nodup_backEdges_run (g := g) (stepBound g) (s := Search.start g root)
    List.nodup_nil
  obtain ⟨t, ht⟩ := exists_search hroot
  obtain ⟨hlaw, -⟩ := lawful_of_search hg.wellFormed ht
  refine ⟨t, _, ht, fun calls hcalls => Search.visit_root hg.wellFormed hroot hcalls, ?_⟩
  rw [search, if_pos (FlowGraph.hasVertex_iff.2 hroot)] at ht
  cases ht
  exact ⟨rfl, rfl, rfl, fun v hv => ⟨hlaw.preIndex?_eq_ok_iff.2 ⟨hv, rfl⟩,
    hlaw.postIndex?_eq_ok_iff.2 ⟨hv, rfl⟩⟩, fun v => rfl,
    fun v => ⟨rfl, nodup_backTargets hnodup v⟩, rfl⟩

open Sample in
/-- The sample has a loop with two ways in, parallel edges, a cross edge and a self loop. -/
theorem search_eq_visit_tangledGraph :
    tangledGraph.Built ∧ 1 ∈ tangledGraph.vertexIds ∧
      ∃ s, Numbering.visit tangledGraph 4 1 1 .empty = some s ∧ s.preOrder = [1, 4, 2, 3] ∧
        s.postOrder = [4, 3, 2, 1] ∧ s.parent 3 = some 2 ∧ s.backTargets 3 = [2, 3] ∧
        s.height = 3 := by
  have hroot : 1 ∈ tangledGraph.vertexIds := by decide
  obtain ⟨t, s, ht, hs, -, hpre, hpost, -, hparent, hback, hheight⟩ :=
    search_eq_visit built_tangledGraph hroot
  cases ht
  exact ⟨built_tangledGraph, hroot, s, hs 4 (by decide), hpre ▸ by decide, hpost ▸ by decide,
    hparent 3 ▸ by decide, (hback 3).1 ▸ by decide, hheight ▸ by decide⟩

end DepthFirstTree

end WorstCase
