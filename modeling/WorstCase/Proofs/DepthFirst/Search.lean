import Mathlib.Algebra.BigOperators.Group.List.Basic
import Mathlib.Algebra.GroupWithZero.Nat
import Mathlib.Data.List.Pairwise
import WorstCase.Graph.DepthFirst
import WorstCase.Proofs.Graph.Walk
import WorstCase.Proofs.Ordered.NatMap

/-!
# What a depth-first search keeps

The numbers that a search keeps are the places of the vertices in its two orders (`Places`). The
state of a search is read through one relation: `a` *encloses* `v` (`Search.Encloses`) when `a` was
reached no later than `v` and is left no earlier. A vertex that is still on the stack counts as left
after all others, so the relation is settled for two vertices as soon as both are reached and no
later step changes it (`Later.encloses_iff`). The invariant (`Search.Inv`) says in these words what
is known of the stack, of the tree and of every edge looked at so far; each step keeps it
(`Inv.step`). The search ends within its number of steps (`stack_run_eq_nil`), so the invariant
holds of its outcome with an empty stack.
-/

namespace WorstCase.Search

/-! ## Positions in a growing list -/

theorem idxOf_append_singleton_self {l : List Nat} {x : Nat} (h : x ∉ l) :
    (l ++ [x]).idxOf x = l.length := by
  rw [List.idxOf_append_of_notMem h, List.idxOf_cons_self, Nat.add_zero]

/-- What is in the list comes before what is put behind it. -/
theorem idxOf_lt_append_singleton {l : List Nat} {x v : Nat} (hx : x ∉ l) (hv : v ∈ l) :
    (l ++ [x]).idxOf v < (l ++ [x]).idxOf x := by
  rw [List.idxOf_append_of_mem hv, idxOf_append_singleton_self hx]
  exact List.idxOf_lt_length_of_mem hv

theorem idxOf_append_singleton_of_notMem {l : List Nat} {x v : Nat} (h : v ∉ l) (hx : v ≠ x) :
    (l ++ [x]).idxOf v = l.length + 1 := by
  rw [List.idxOf_append_of_notMem h, List.idxOf_cons_ne _ (Ne.symm hx), List.idxOf_nil]

/-- Appending `v` keeps the order of two places unless `v` comes to stand before an entry that is
not there yet. -/
theorem idxOf_le_append_singleton_iff {l : List Nat} {v a w : Nat} (hv : v ∉ l)
    (h : a = v → w ∈ l ∨ w = v) :
    (l ++ [v]).idxOf w ≤ (l ++ [v]).idxOf a ↔ l.idxOf w ≤ l.idxOf a := by
  have hin : ∀ x ∈ l, (l ++ [v]).idxOf x = l.idxOf x ∧ l.idxOf x < l.length :=
    fun x hx => ⟨List.idxOf_append_of_mem hx, List.idxOf_lt_length_of_mem hx⟩
  have hnew : (l ++ [v]).idxOf v = l.length ∧ l.idxOf v = l.length :=
    ⟨idxOf_append_singleton_self hv, List.idxOf_eq_length hv⟩
  have hout : ∀ x, x ∉ l → x ≠ v → (l ++ [v]).idxOf x = l.length + 1 ∧ l.idxOf x = l.length :=
    fun x hx hne => ⟨idxOf_append_singleton_of_notMem hx hne, List.idxOf_eq_length hx⟩
  by_cases hwl : w ∈ l
  · have hw := hin w hwl
    by_cases hal : a ∈ l
    · have ha := hin a hal
      omega
    · by_cases hav : a = v
      · subst hav; omega
      · have ha := hout a hal hav
        omega
  · by_cases hwv : w = v
    · subst hwv
      by_cases hal : a ∈ l
      · have ha := hin a hal
        omega
      · by_cases hav : a = w
        · subst hav; omega
        · have ha := hout a hal hav
          omega
    · have hw := hout w hwl hwv
      by_cases hal : a ∈ l
      · have ha := hin a hal
        omega
      · have hav : a ≠ v := fun e => (h e).elim hwl hwv
        have ha := hout a hal hav
        omega

/-! ## Numbers and places -/

/-- The place of a vertex in an order, counted from 1; 0 when it is not in it. -/
def position (order : List Nat) (v : Nat) : Nat :=
  if order.contains v then order.idxOf v + 1 else 0

theorem position_of_mem {order : List Nat} {v : Nat} (h : v ∈ order) :
    position order v = order.idxOf v + 1 := by
  simp only [position, List.contains_iff_mem, h, ↓reduceIte]

/-- Number 0 says that a vertex is not in the order. -/
theorem position_eq_zero_iff {order : List Nat} {v : Nat} : position order v = 0 ↔ v ∉ order := by
  unfold position
  split
  · next h => simpa using h
  · next h => simpa using h

/-- The numbers are those of the given vertices, and each is the place in the order. -/
def Places (vertices order : List Nat) (numbers : NatMap Nat) : Prop :=
  ∀ v, numbers.get? v = if v ∈ vertices then some (position order v) else none

/-- At the start no vertex has a number, and the orders are empty. -/
theorem places_unnumbered (g : FlowGraph) : Places g.vertexIds [] (unnumbered g) :=
  fun v => NatMap.get?_ofList_map (fun _ => 0) g.vertexIds v

namespace Places

variable {vertices order : List Nat} {numbers : NatMap Nat} (h : Places vertices order numbers)

include h

/-- The next number belongs to the vertex that comes next. -/
theorem concat {v : Nat} (hv : v ∈ vertices) (hnew : v ∉ order) :
    Places vertices (order ++ [v]) (numbers.insert v (order.length + 1)) := by
  intro w
  rw [NatMap.get?_insert, h w]
  by_cases hw : w = v
  · subst hw
    have hplace : position (order ++ [w]) w = order.length + 1 := by
      rw [position_of_mem (List.mem_append_right _ (List.mem_singleton_self w)),
        idxOf_append_singleton_self hnew]
    rw [if_pos rfl, if_pos hv, hplace]
  · have hplace : position (order ++ [v]) w = position order w := by
      by_cases hmem : w ∈ order
      · rw [position_of_mem (List.mem_append_left _ hmem), position_of_mem hmem,
          List.idxOf_append_of_mem hmem]
      · rw [position_eq_zero_iff.2 hmem]
        exact position_eq_zero_iff.2 (by simp [hmem, hw])
    rw [if_neg hw, hplace]

/-- The map of numbers can be read off the order. -/
theorem number_eq (hsub : ∀ v ∈ order, v ∈ vertices) (v : Nat) :
    number numbers v = position order v := by
  rw [number, h v]
  split
  · rfl
  · next hv => exact (position_eq_zero_iff.2 fun hmem => hv (hsub v hmem)).symm

end Places

/-! ## The invariant -/

/-- The vertices on the stack, the current one first. -/
def onStack (s : Search) : List Nat :=
  s.stack.map (·.vertex)

/-- `a` was reached no later than `v` and is left no earlier. -/
def Encloses (s : Search) (a v : Nat) : Prop :=
  s.preOrder.idxOf a ≤ s.preOrder.idxOf v ∧ s.postOrder.idxOf v ≤ s.postOrder.idxOf a

/-- What is known of an edge from `u` to `w` once the search has looked at it. -/
structure Looked (s : Search) (u w : Nat) : Prop where
  reached : w ∈ s.preOrder
  back : s.Encloses w u → (u, w) ∈ s.backEdges
  forward : s.preOrder.idxOf u ≤ s.preOrder.idxOf w → s.Encloses u w

/-- What holds in every state of a search from `root`. -/
structure Inv (g : FlowGraph) (root : Nat) (s : Search) : Prop where
  pre_nodup : s.preOrder.Nodup
  post_nodup : s.postOrder.Nodup
  pre_places : Places g.vertexIds s.preOrder s.preNumbers
  post_places : Places g.vertexIds s.postOrder s.postNumbers
  pre_eq : s.preOrder = root :: s.parents.map (·.1)
  pre_mem : ∀ v ∈ s.preOrder, v ∈ g.vertexIds
  mem_pre : ∀ v, v ∈ s.preOrder ↔ v ∈ s.onStack ∨ v ∈ s.postOrder
  stack_not_left : ∀ v ∈ s.onStack, v ∉ s.postOrder
  stack_sorted : s.onStack.Pairwise fun a b => s.preOrder.idxOf b < s.preOrder.idxOf a
  /-- A vertex is reached along an edge, and whatever encloses it encloses its parent. -/
  parent : ∀ q ∈ s.parents, q.2 ∈ s.preOrder ∧ g.Adj q.2 q.1 ∧ q.2 ≠ q.1 ∧ s.Encloses q.2 q.1 ∧
    ∀ a ∈ s.preOrder, s.Encloses a q.1 → a = q.1 ∨ s.Encloses a q.2
  back : ∀ q ∈ s.backEdges, q.1 ∈ s.preOrder ∧ q.2 ∈ s.preOrder ∧ g.Adj q.1 q.2 ∧
    s.Encloses q.2 q.1
  left : ∀ u ∈ s.postOrder, ∀ w ∈ destinations g u, s.Looked u w
  frames : ∀ f ∈ s.stack, ∃ seen, destinations g f.vertex = seen ++ f.pending ∧
    ∀ w ∈ seen, s.Looked f.vertex w

/-! ## Steps -/

/-- What a step does: it leaves the current vertex, comes to a new one or looks at an old one. -/
theorem step_cases (g : FlowGraph) (s : Search) :
    (s.stack = [] ∧ s.step g = s) ∨
    (∃ v rest, s.stack = ⟨v, []⟩ :: rest ∧ s.step g = s.leave v rest) ∨
    (∃ v w pending rest, s.stack = ⟨v, w :: pending⟩ :: rest ∧ number s.preNumbers w = 0 ∧
      s.step g = s.enter g v w (⟨v, pending⟩ :: rest)) ∨
    (∃ v w pending rest, s.stack = ⟨v, w :: pending⟩ :: rest ∧ number s.preNumbers w ≠ 0 ∧
      s.step g = { s.lookBack v w with stack := ⟨v, pending⟩ :: rest }) := by
  unfold step
  rcases hs : s.stack with _ | ⟨⟨v, pending⟩, rest⟩
  · exact Or.inl ⟨rfl, rfl⟩
  · rcases pending with _ | ⟨w, pending⟩
    · exact Or.inr (Or.inl ⟨v, rest, rfl, rfl⟩)
    · by_cases hw : number s.preNumbers w = 0
      · exact Or.inr (Or.inr (Or.inl ⟨v, w, pending, rest, rfl, hw, if_pos hw⟩))
      · exact Or.inr (Or.inr (Or.inr ⟨v, w, pending, rest, rfl, hw, if_neg hw⟩))

section lookBack

variable (s : Search) (v w : Nat)

/-- Looking back changes the back edges at most. -/
theorem lookBack_eq : ∃ backEdges, s.lookBack v w = { s with backEdges } := by
  unfold lookBack noteBackEdge
  split
  · exact ⟨_, rfl⟩
  · split
    · split
      · exact ⟨_, rfl⟩
      · exact ⟨_, rfl⟩
    · exact ⟨_, rfl⟩

@[simp] theorem lookBack_preOrder : (s.lookBack v w).preOrder = s.preOrder := by
  obtain ⟨_, he⟩ := s.lookBack_eq v w
  rw [he]

@[simp] theorem lookBack_postOrder : (s.lookBack v w).postOrder = s.postOrder := by
  obtain ⟨_, he⟩ := s.lookBack_eq v w
  rw [he]

@[simp] theorem lookBack_preNumbers : (s.lookBack v w).preNumbers = s.preNumbers := by
  obtain ⟨_, he⟩ := s.lookBack_eq v w
  rw [he]

@[simp] theorem lookBack_postNumbers : (s.lookBack v w).postNumbers = s.postNumbers := by
  obtain ⟨_, he⟩ := s.lookBack_eq v w
  rw [he]

@[simp] theorem lookBack_parents : (s.lookBack v w).parents = s.parents := by
  obtain ⟨_, he⟩ := s.lookBack_eq v w
  rw [he]

@[simp] theorem lookBack_height : (s.lookBack v w).height = s.height := by
  obtain ⟨_, he⟩ := s.lookBack_eq v w
  rw [he]

/-- Looking back notes the edge when its end was reached no later and has not been left. -/
theorem mem_lookBack_backEdges {q : Nat × Nat} : q ∈ (s.lookBack v w).backEdges ↔
    q ∈ s.backEdges ∨ (q = (v, w) ∧ number s.preNumbers w ≤ number s.preNumbers v ∧
      number s.postNumbers w = 0) := by
  unfold lookBack noteBackEdge
  split
  · next hlt => simp only [Nat.not_le_of_lt hlt, false_and, and_false, or_false]
  · next hle =>
    split
    · next hw =>
      split
      · next hq =>
        rw [List.contains_iff_mem] at hq
        refine ⟨Or.inl, ?_⟩
        rintro (h | ⟨rfl, -⟩)
        · exact h
        · exact hq
      · simp only [List.mem_append, List.mem_singleton, Nat.le_of_not_lt hle, hw, and_self,
          and_true]
    · next hw => simp only [hw, and_false, or_false]

end lookBack

/-! ## Later states -/

/-- `s'` comes after `s`: what was settled in `s` still stands. -/
structure Later (s s' : Search) : Prop where
  reached : ∀ v ∈ s.preOrder, v ∈ s'.preOrder
  idxOf_eq : ∀ v ∈ s.preOrder, s'.preOrder.idxOf v = s.preOrder.idxOf v
  encloses_iff : ∀ a ∈ s.preOrder, ∀ v ∈ s.preOrder, s'.Encloses a v ↔ s.Encloses a v
  back : ∀ q ∈ s.backEdges, q ∈ s'.backEdges

theorem Looked.later {s s' : Search} {u w : Nat} (h : s.Looked u w) (hl : s.Later s')
    (hu : u ∈ s.preOrder) : s'.Looked u w where
  reached := hl.reached w h.reached
  back he := hl.back _ (h.back ((hl.encloses_iff w h.reached u hu).1 he))
  forward hi := by
    rw [hl.idxOf_eq u hu, hl.idxOf_eq w h.reached] at hi
    exact (hl.encloses_iff u hu w h.reached).2 (h.forward hi)

namespace Inv

variable {g : FlowGraph} {root : Nat} {s : Search}

theorem onStack_reached (h : Inv g root s) {v : Nat} (hv : v ∈ s.onStack) : v ∈ s.preOrder :=
  (h.mem_pre v).2 (Or.inl hv)

theorem left_reached (h : Inv g root s) {v : Nat} (hv : v ∈ s.postOrder) : v ∈ s.preOrder :=
  (h.mem_pre v).2 (Or.inr hv)

theorem preNumber_eq (h : Inv g root s) (v : Nat) :
    number s.preNumbers v = position s.preOrder v :=
  h.pre_places.number_eq h.pre_mem v

theorem postNumber_eq (h : Inv g root s) (v : Nat) :
    number s.postNumbers v = position s.postOrder v :=
  h.post_places.number_eq (fun w hw => h.pre_mem w (h.left_reached hw)) v

theorem preNumber_eq_zero_iff (h : Inv g root s) {v : Nat} :
    number s.preNumbers v = 0 ↔ v ∉ s.preOrder := by
  rw [h.preNumber_eq, position_eq_zero_iff]

theorem postNumber_eq_zero_iff (h : Inv g root s) {v : Nat} :
    number s.postNumbers v = 0 ↔ v ∉ s.postOrder := by
  rw [h.postNumber_eq, position_eq_zero_iff]

/-- The numbers of two vertices compare as their places in pre-order. -/
theorem preNumber_le_iff (h : Inv g root s) {v w : Nat} (hv : v ∈ s.preOrder)
    (hw : w ∈ s.preOrder) : number s.preNumbers v ≤ number s.preNumbers w ↔
      s.preOrder.idxOf v ≤ s.preOrder.idxOf w := by
  rw [h.preNumber_eq, h.preNumber_eq, position_of_mem hv, position_of_mem hw,
    Nat.add_le_add_iff_right]

/-- What a step does, in terms of what has been reached. -/
theorem step_cases (h : Inv g root s) :
    (s.stack = [] ∧ s.step g = s) ∨
    (∃ v rest, s.stack = ⟨v, []⟩ :: rest ∧ s.step g = s.leave v rest) ∨
    (∃ v w pending rest, s.stack = ⟨v, w :: pending⟩ :: rest ∧ w ∉ s.preOrder ∧
      s.step g = s.enter g v w (⟨v, pending⟩ :: rest)) ∨
    (∃ v w pending rest, s.stack = ⟨v, w :: pending⟩ :: rest ∧ w ∈ s.preOrder ∧
      s.step g = { s.lookBack v w with stack := ⟨v, pending⟩ :: rest }) := by
  simpa only [ne_eq, h.preNumber_eq_zero_iff, not_not] using Search.step_cases g s

/-- A vertex on the stack encloses all that was reached after it. -/
theorem encloses_of_onStack (h : Inv g root s) {a v : Nat} (ha : a ∈ s.onStack)
    (hle : s.preOrder.idxOf a ≤ s.preOrder.idxOf v) : s.Encloses a v := by
  refine ⟨hle, ?_⟩
  rw [List.idxOf_eq_length (h.stack_not_left a ha)]
  exact List.idxOf_le_length

/-- What encloses a vertex on the stack is on the stack. -/
theorem onStack_of_encloses (h : Inv g root s) {a v : Nat} (hv : v ∈ s.onStack)
    (ha : a ∈ s.preOrder) (he : s.Encloses a v) : a ∈ s.onStack := by
  rcases (h.mem_pre a).1 ha with ha | ha
  · exact ha
  · have h1 := he.2
    rw [List.idxOf_eq_length (h.stack_not_left v hv)] at h1
    exact absurd (List.idxOf_lt_length_of_mem ha) (Nat.not_lt_of_le h1)

/-- The current vertex was reached last of those on the stack. -/
theorem idxOf_le_top (h : Inv g root s) {v a : Nat} {pending : List Nat} {rest : List Frame}
    (hs : s.stack = ⟨v, pending⟩ :: rest) (ha : a ∈ s.onStack) :
    s.preOrder.idxOf a ≤ s.preOrder.idxOf v := by
  have hsorted := h.stack_sorted
  simp only [onStack, hs, List.map_cons, List.pairwise_cons] at hsorted ha
  rcases List.mem_cons.1 ha with rfl | ha
  · exact Nat.le_refl _
  · exact Nat.le_of_lt (hsorted.1 a ha)

theorem onStack_eq {v : Nat} {pending : List Nat} {rest : List Frame}
    (hs : s.stack = ⟨v, pending⟩ :: rest) : s.onStack = v :: rest.map (·.vertex) := by
  simp only [onStack, hs, List.map_cons]

theorem top_onStack {v : Nat} {pending : List Nat} {rest : List Frame}
    (hs : s.stack = ⟨v, pending⟩ :: rest) : v ∈ s.onStack := by
  rw [onStack_eq hs]
  exact List.mem_cons_self

theorem later_leave (h : Inv g root s) {v : Nat} {rest : List Frame}
    (hs : s.stack = ⟨v, []⟩ :: rest) : s.Later (s.leave v rest) := by
  have hv : v ∉ s.postOrder := h.stack_not_left v (top_onStack hs)
  refine ⟨fun _ hw => hw, fun _ _ => rfl, fun a _ w hw => ?_, fun _ hq => hq⟩
  simp only [Encloses, leave]
  refine and_congr_right fun hle => idxOf_le_append_singleton_iff hv ?_
  -- a vertex on the stack below the current one was reached before it
  rintro rfl
  rcases (h.mem_pre w).1 hw with hwS | hwP
  · have := h.idxOf_le_top hs hwS
    exact Or.inr ((List.idxOf_inj hw).1 (by omega))
  · exact Or.inl hwP

theorem later_enter {v w : Nat} {stack : List Frame} : s.Later (s.enter g v w stack) := by
  refine ⟨fun _ hx => List.mem_append_left _ hx, fun x hx => List.idxOf_append_of_mem hx,
    fun a ha x hx => ?_, fun _ hq => hq⟩
  simp only [Encloses, enter, List.idxOf_append_of_mem ha, List.idxOf_append_of_mem hx]

theorem later_look {v w : Nat} {stack : List Frame} :
    s.Later { s.lookBack v w with stack } := by
  refine ⟨fun x hx => ?_, fun x _ => ?_, fun a _ x _ => ?_, fun q hq => ?_⟩
  · simpa only [lookBack_preOrder] using hx
  · simp only [lookBack_preOrder]
  · simp only [Encloses, lookBack_preOrder, lookBack_postOrder]
  · exact (mem_lookBack_backEdges s v w).2 (Or.inl hq)

/-! ## What is known still holds later -/

theorem child_reached (h : Inv g root s) {q : Nat × Nat} (hq : q ∈ s.parents) :
    q.1 ∈ s.preOrder := by
  rw [h.pre_eq]
  exact List.mem_cons_of_mem _ (List.mem_map_of_mem hq)

/-- A parent stays one: it keeps enclosing its child, and nothing comes between them. -/
theorem parent_later (h : Inv g root s) {s' : Search} (hl : s.Later s')
    (hnew : ∀ a ∈ s'.preOrder, a ∉ s.preOrder → ∀ v ∈ s.preOrder, ¬ s'.Encloses a v)
    {q : Nat × Nat} (hq : q ∈ s.parents) :
    q.2 ∈ s'.preOrder ∧ g.Adj q.2 q.1 ∧ q.2 ≠ q.1 ∧ s'.Encloses q.2 q.1 ∧
      ∀ a ∈ s'.preOrder, s'.Encloses a q.1 → a = q.1 ∨ s'.Encloses a q.2 := by
  obtain ⟨hp, hadj, hne, henc, hmin⟩ := h.parent q hq
  have hc := h.child_reached hq
  refine ⟨hl.reached _ hp, hadj, hne, (hl.encloses_iff _ hp _ hc).2 henc, fun a ha hea => ?_⟩
  by_cases has : a ∈ s.preOrder
  · rcases hmin a has ((hl.encloses_iff a has _ hc).1 hea) with e | e
    · exact Or.inl e
    · exact Or.inr ((hl.encloses_iff a has _ hp).2 e)
  · exact absurd hea (hnew a ha has _ hc)

/-- A back edge stays one: its destination keeps enclosing its source. -/
theorem back_later (h : Inv g root s) {s' : Search} (hl : s.Later s') {q : Nat × Nat}
    (hq : q ∈ s.backEdges) : q.1 ∈ s'.preOrder ∧ q.2 ∈ s'.preOrder ∧ g.Adj q.1 q.2 ∧
      s'.Encloses q.2 q.1 := by
  obtain ⟨h1, h2, hadj, henc⟩ := h.back q hq
  exact ⟨hl.reached _ h1, hl.reached _ h2, hadj, (hl.encloses_iff _ h2 _ h1).2 henc⟩

/-- All edges of a vertex that has been left have been looked at. -/
theorem left_later (h : Inv g root s) {s' : Search} (hl : s.Later s') {u w : Nat}
    (hu : u ∈ s.postOrder) (hw : w ∈ destinations g u) : s'.Looked u w :=
  (h.left u hu w hw).later hl (h.left_reached hu)

/-- On the stack, the edges of a vertex that are not pending have been looked at. -/
theorem frame_later (h : Inv g root s) {s' : Search} (hl : s.Later s') {f : Frame}
    (hf : f ∈ s.stack) : ∃ seen, destinations g f.vertex = seen ++ f.pending ∧
      ∀ w ∈ seen, s'.Looked f.vertex w := by
  obtain ⟨seen, he, hseen⟩ := h.frames f hf
  have hv : f.vertex ∈ s.preOrder := h.onStack_reached (List.mem_map_of_mem hf)
  exact ⟨seen, he, fun w hw => (hseen w hw).later hl hv⟩

/-- Once the next edge of the top vertex has been looked at, it is no longer pending. -/
theorem frames_advance (h : Inv g root s) {s' : Search} (hl : s.Later s') {v w : Nat}
    {pending : List Nat} {rest : List Frame} (hs : s.stack = ⟨v, w :: pending⟩ :: rest)
    (hlooked : s'.Looked v w) {f : Frame} (hf : f ∈ (⟨v, pending⟩ : Frame) :: rest) :
    ∃ seen, destinations g f.vertex = seen ++ f.pending ∧ ∀ x ∈ seen, s'.Looked f.vertex x := by
  rcases List.mem_cons.1 hf with rfl | hf
  · obtain ⟨seen, he, hseen⟩ := h.frame_later hl (hs ▸ List.mem_cons_self)
    refine ⟨seen ++ [w], by rw [he, List.append_assoc]; rfl, fun x hx => ?_⟩
    rcases List.mem_append.1 hx with hx | hx
    · exact hseen x hx
    · exact List.mem_singleton.1 hx ▸ hlooked
  · exact h.frame_later hl (hs ▸ List.mem_cons_of_mem _ hf)

/-! ## A new vertex -/

section enter

variable {v w : Nat} {pending : List Nat} {rest stack : List Frame}

/-- A vertex that is new encloses none of the others. -/
theorem not_encloses_enter (hw : w ∉ s.preOrder) {a x : Nat}
    (ha : a ∈ (s.enter g v w stack).preOrder) (has : a ∉ s.preOrder) (hx : x ∈ s.preOrder) :
    ¬ (s.enter g v w stack).Encloses a x := by
  have haw : a = w := List.mem_singleton.1 ((List.mem_append.1 ha).resolve_left has)
  rw [haw]
  exact fun he => Nat.not_le_of_lt (idxOf_lt_append_singleton hw hx) he.1

/-- A new vertex is enclosed by what is on the stack, that is by what encloses the current one. -/
theorem encloses_top_of_enter (h : Inv g root s) (hs : s.stack = ⟨v, w :: pending⟩ :: rest)
    (hw : w ∉ s.preOrder) {a : Nat} (ha : a ∈ s.preOrder)
    (he : (s.enter g v w stack).Encloses a w) : s.Encloses a v := by
  have hle := he.2
  simp only [Search.enter, List.idxOf_eq_length fun hp => hw (h.left_reached hp)] at hle
  have hap : a ∉ s.postOrder := fun hap => by
    have := List.idxOf_lt_length_of_mem hap
    omega
  have haS : a ∈ s.onStack := ((h.mem_pre a).1 ha).resolve_right hap
  exact h.encloses_of_onStack haS (h.idxOf_le_top hs haS)

/-- The current vertex encloses the one that is found from it. -/
theorem top_encloses_enter (h : Inv g root s) (hs : s.stack = ⟨v, w :: pending⟩ :: rest)
    (hw : w ∉ s.preOrder) : (s.enter g v w stack).Encloses v w := by
  have hv := top_onStack hs
  refine ⟨Nat.le_of_lt (idxOf_lt_append_singleton hw (h.onStack_reached hv)), ?_⟩
  simp only [Search.enter]
  rw [List.idxOf_eq_length (h.stack_not_left v hv)]
  exact List.idxOf_le_length

/-- The edge to a new vertex has been looked at, and is no back edge. -/
theorem looked_enter (h : Inv g root s) (hs : s.stack = ⟨v, w :: pending⟩ :: rest)
    (hw : w ∉ s.preOrder) : (s.enter g v w stack).Looked v w where
  reached := List.mem_append_right _ List.mem_cons_self
  back he := absurd he.1
    (Nat.not_le_of_lt (idxOf_lt_append_singleton hw (h.onStack_reached (top_onStack hs))))
  forward _ := h.top_encloses_enter hs hw

end enter

/-! ## Each step keeps the invariant -/

theorem leave (h : Inv g root s) {v : Nat} {rest : List Frame}
    (hs : s.stack = ⟨v, []⟩ :: rest) : Inv g root (s.leave v rest) := by
  have hl := h.later_leave hs
  have hv : v ∉ s.postOrder := h.stack_not_left v (top_onStack hs)
  have hstack := onStack_eq hs
  have hsorted := h.stack_sorted
  rw [hstack, List.pairwise_cons] at hsorted
  have hmem : ∀ f ∈ rest, f ∈ s.stack := fun f hf => hs ▸ List.mem_cons_of_mem _ hf
  exact
    { pre_nodup := h.pre_nodup
      post_nodup := by simpa [Search.leave] using h.post_nodup.concat hv
      pre_places := h.pre_places
      post_places := h.post_places.concat (h.pre_mem v (h.onStack_reached (top_onStack hs))) hv
      pre_eq := h.pre_eq
      pre_mem := h.pre_mem
      mem_pre := by
        intro x
        have hx := h.mem_pre x
        rw [hstack, List.mem_cons] at hx
        simp only [Search.leave, onStack, List.mem_append, List.mem_singleton]
        rw [hx]
        tauto
      stack_not_left := by
        intro x hx hxp
        rcases List.mem_append.1 hxp with hxp | hxp
        · exact h.stack_not_left x (hstack ▸ List.mem_cons_of_mem _ hx) hxp
        · rw [List.mem_singleton.1 hxp] at hx
          exact Nat.lt_irrefl _ (hsorted.1 v hx)
      stack_sorted := hsorted.2
      parent := fun q hq => h.parent_later hl (fun a ha hna => absurd ha hna) hq
      back := fun q hq => h.back_later hl hq
      left := by
        intro u hu w hw
        rcases List.mem_append.1 hu with hu | hu
        · exact h.left_later hl hu hw
        · rw [List.mem_singleton.1 hu] at hw ⊢
          obtain ⟨seen, he, hseen⟩ := h.frame_later hl (f := ⟨v, []⟩) (hs ▸ List.mem_cons_self)
          rw [List.append_nil] at he
          exact hseen w (he ▸ hw)
      frames := fun f hf => h.frame_later hl (hmem f hf) }

theorem enter (h : Inv g root s) {v w : Nat} {pending : List Nat} {rest : List Frame}
    (hs : s.stack = ⟨v, w :: pending⟩ :: rest) (hw : w ∉ s.preOrder) (hadj : g.Adj v w)
    (hwv : w ∈ g.vertexIds) : Inv g root (s.enter g v w (⟨v, pending⟩ :: rest)) := by
  have hl : s.Later (s.enter g v w (⟨v, pending⟩ :: rest)) := later_enter
  have hv : v ∈ s.preOrder := h.onStack_reached (top_onStack hs)
  have hvw : v ≠ w := fun e => hw (e ▸ hv)
  have hstack := onStack_eq hs
  exact
    { pre_nodup := by simpa [Search.enter] using h.pre_nodup.concat hw
      post_nodup := h.post_nodup
      pre_places := h.pre_places.concat hwv hw
      post_places := h.post_places
      pre_eq := by
        simp only [Search.enter, List.map_append, List.map_cons, List.map_nil]
        rw [h.pre_eq, List.cons_append]
      pre_mem := by
        intro x hx
        rcases List.mem_append.1 hx with hx | hx
        · exact h.pre_mem x hx
        · rw [List.mem_singleton.1 hx]
          exact hwv
      mem_pre := by
        intro x
        have hx := h.mem_pre x
        rw [hstack, List.mem_cons] at hx
        simp only [Search.enter, onStack, List.map_cons, List.mem_cons, List.mem_append,
          List.not_mem_nil, or_false]
        rw [hx]
        tauto
      stack_not_left := by
        intro x hx
        simp only [Search.enter, onStack, List.map_cons, List.mem_cons] at hx
        rcases hx with rfl | hx
        · exact fun hp => hw (h.left_reached hp)
        · exact h.stack_not_left x (by rw [hstack]; exact List.mem_cons.2 hx)
      stack_sorted := by
        have hsorted := h.stack_sorted
        have hreached : ∀ x ∈ s.onStack, x ∈ s.preOrder := fun x hx => h.onStack_reached hx
        rw [hstack] at hsorted hreached
        refine List.pairwise_cons.2
          ⟨fun x hx => idxOf_lt_append_singleton hw (hreached x hx), ?_⟩
        refine hsorted.imp_of_mem fun {a b} ha hb hab => ?_
        simp only [Search.enter, List.idxOf_append_of_mem (hreached a ha),
          List.idxOf_append_of_mem (hreached b hb)]
        exact hab
      parent := by
        intro q hq
        rcases List.mem_append.1 hq with hq | hq
        · exact h.parent_later hl (fun a ha has x hx => not_encloses_enter hw ha has hx) hq
        · rw [List.mem_singleton.1 hq]
          refine ⟨hl.reached v hv, hadj, hvw, h.top_encloses_enter hs hw, fun a ha he => ?_⟩
          by_cases has : a ∈ s.preOrder
          · exact Or.inr ((hl.encloses_iff a has v hv).2 (h.encloses_top_of_enter hs hw has he))
          · exact Or.inl (List.mem_singleton.1 ((List.mem_append.1 ha).resolve_left has))
      back := fun q hq => h.back_later hl hq
      left := fun u hu x hx => h.left_later hl hu hx
      frames := by
        intro f hf
        rcases List.mem_cons.1 hf with rfl | hf
        · exact ⟨[], rfl, fun x hx => absurd hx List.not_mem_nil⟩
        · exact h.frames_advance hl hs (h.looked_enter hs hw) hf }

/-- An edge to a vertex that has been reached has been looked at once it is noted. -/
theorem looked_lookBack (h : Inv g root s) {v w : Nat} {pending : List Nat}
    {rest stack : List Frame} (hs : s.stack = ⟨v, w :: pending⟩ :: rest) (hw : w ∈ s.preOrder) :
    Looked { s.lookBack v w with stack } v w := by
  have hl : s.Later { s.lookBack v w with stack } := later_look
  have hvS : v ∈ s.onStack := top_onStack hs
  have hv : v ∈ s.preOrder := h.onStack_reached hvS
  refine ⟨hl.reached w hw, fun he => ?_, fun hle => ?_⟩
  · have he' := (hl.encloses_iff w hw v hv).1 he
    have hwS := h.onStack_of_encloses hvS hw he'
    exact (mem_lookBack_backEdges s v w).2
      (Or.inr ⟨rfl, (h.preNumber_le_iff hw hv).2 he'.1,
        h.postNumber_eq_zero_iff.2 (h.stack_not_left w hwS)⟩)
  · simp only [lookBack_preOrder] at hle
    exact (hl.encloses_iff v hv w hw).2 (h.encloses_of_onStack hvS hle)

theorem look (h : Inv g root s) {v w : Nat} {pending : List Nat} {rest : List Frame}
    (hs : s.stack = ⟨v, w :: pending⟩ :: rest) (hw : w ∈ s.preOrder) (hadj : g.Adj v w) :
    Inv g root { s.lookBack v w with stack := ⟨v, pending⟩ :: rest } := by
  have hl : s.Later { s.lookBack v w with stack := ⟨v, pending⟩ :: rest } := later_look
  have hv : v ∈ s.preOrder := h.onStack_reached (top_onStack hs)
  have hstack := onStack_eq hs
  exact
    { pre_nodup := by simpa only [lookBack_preOrder] using h.pre_nodup
      post_nodup := by simpa only [lookBack_postOrder] using h.post_nodup
      pre_places := by simpa only [lookBack_preOrder, lookBack_preNumbers] using h.pre_places
      post_places := by simpa only [lookBack_postOrder, lookBack_postNumbers] using h.post_places
      pre_eq := by simpa only [lookBack_preOrder, lookBack_parents] using h.pre_eq
      pre_mem := by simpa only [lookBack_preOrder] using h.pre_mem
      mem_pre := by
        intro x
        have hx := h.mem_pre x
        rw [hstack] at hx
        simpa only [lookBack_preOrder, lookBack_postOrder, onStack, List.map_cons] using hx
      stack_not_left := by
        have hx := h.stack_not_left
        rw [hstack] at hx
        simpa only [lookBack_postOrder, onStack, List.map_cons] using hx
      stack_sorted := by
        have hsorted := h.stack_sorted
        rw [hstack] at hsorted
        simpa only [lookBack_preOrder, onStack, List.map_cons] using hsorted
      parent := by
        intro q hq
        simp only [lookBack_parents] at hq
        refine h.parent_later hl (fun a ha hna => ?_) hq
        simp only [lookBack_preOrder] at ha
        exact absurd ha hna
      back := by
        intro q hq
        rcases (mem_lookBack_backEdges s v w).1 hq with hq | ⟨rfl, hle, hwp⟩
        · exact h.back_later hl hq
        · rw [h.preNumber_le_iff hw hv] at hle
          rw [h.postNumber_eq_zero_iff] at hwp
          have hwS : w ∈ s.onStack := ((h.mem_pre w).1 hw).resolve_right hwp
          exact ⟨hl.reached v hv, hl.reached w hw, hadj,
            (hl.encloses_iff w hw v hv).2 (h.encloses_of_onStack hwS hle)⟩
      left := by
        intro u hu x hx
        simp only [lookBack_postOrder] at hu
        exact h.left_later hl hu hx
      frames := fun f hf => h.frames_advance hl hs (h.looked_lookBack hs hw) hf }

end Inv

/-! ## Whole searches -/

theorem mem_destinations {g : FlowGraph} (hg : g.WellFormed) {v w : Nat} :
    w ∈ destinations g v ↔ g.Adj v w := by
  simp only [destinations, hg.successorEdges_eq, List.mem_map, List.mem_filter, beq_iff_eq,
    FlowGraph.Adj, and_assoc]

/-- The search starts in the invariant, with the root on the stack. -/
theorem inv_start {g : FlowGraph} {root : Nat} (hroot : root ∈ g.vertexIds) :
    Inv g root (start g root) where
  pre_nodup := List.nodup_singleton _
  post_nodup := List.nodup_nil
  pre_places := (places_unnumbered g).concat hroot List.not_mem_nil
  post_places := places_unnumbered g
  pre_eq := rfl
  pre_mem v hv := by
    rw [List.mem_singleton.1 hv]
    exact hroot
  mem_pre v := by simp [start, onStack]
  stack_not_left _ _ := List.not_mem_nil
  stack_sorted := List.pairwise_singleton _ _
  parent _ hq := absurd hq List.not_mem_nil
  back _ hq := absurd hq List.not_mem_nil
  left _ hu := absurd hu List.not_mem_nil
  frames f hf := by
    rw [List.mem_singleton.1 hf]
    exact ⟨[], rfl, fun w hw => absurd hw List.not_mem_nil⟩

/-- A step keeps the invariant. -/
theorem Inv.step {g : FlowGraph} {root : Nat} {s : Search} (hg : g.WellFormed)
    (h : Inv g root s) : Inv g root (s.step g) := by
  rcases h.step_cases with ⟨-, he⟩ | ⟨v, rest, hs, he⟩ | ⟨v, w, pending, rest, hs, hw, he⟩ |
    ⟨v, w, pending, rest, hs, hw, he⟩ <;> rw [he]
  · exact h
  · exact h.leave hs
  · obtain ⟨seen, hd, -⟩ := h.frames ⟨v, w :: pending⟩ (hs ▸ List.mem_cons_self)
    have hadj : g.Adj v w := (mem_destinations hg).1 (hd ▸ by simp)
    exact h.enter hs hw hadj (hadj.destination_mem hg)
  · obtain ⟨seen, hd, -⟩ := h.frames ⟨v, w :: pending⟩ (hs ▸ List.mem_cons_self)
    exact h.look hs hw ((mem_destinations hg).1 (hd ▸ by simp))

theorem Inv.run {g : FlowGraph} {root : Nat} (hg : g.WellFormed) (steps : Nat) {s : Search}
    (h : Inv g root s) : Inv g root (s.run g steps) := by
  induction steps generalizing s with
  | zero => exact h
  | succ steps ih =>
    unfold Search.run
    split
    · exact h
    · exact ih (h.step hg)

/-- How many steps are left: one for each vertex still to be left and each edge still to be looked
at. -/
def remaining (g : FlowGraph) (s : Search) : Nat :=
  (s.stack.map fun f => f.pending.length + 1).sum +
    ((g.vertexIds.filter fun v => !s.preOrder.contains v).map
      fun v => (destinations g v).length + 1).sum

/-- The weight of what is not in `seen` falls by that of `w` when `w` is added to `seen`. -/
theorem sum_filter_notMem_append {l seen : List Nat} {w : Nat} (f : Nat → Nat) (hl : l.Nodup)
    (hw : w ∈ l) (hws : w ∉ seen) :
    ((l.filter fun v => !seen.contains v).map f).sum =
      ((l.filter fun v => !(seen ++ [w]).contains v).map f).sum + f w := by
  induction l with
  | nil => cases hw
  | cons x l ih =>
    obtain ⟨hx, hl⟩ := List.nodup_cons.1 hl
    rcases List.mem_cons.1 hw with rfl | hw
    · have he : l.filter (fun v => !(seen ++ [w]).contains v) =
          l.filter fun v => !seen.contains v := by
        refine List.filter_congr fun v hv => ?_
        have hvw : v ≠ w := fun e => hx (e ▸ hv)
        simp [hvw]
      rw [List.filter_cons_of_pos (by simp [hws]), List.filter_cons_of_neg (by simp), he,
        List.map_cons, List.sum_cons, Nat.add_comm]
    · have hxw : x ≠ w := fun e => hx (e ▸ hw)
      by_cases hxs : x ∈ seen
      · rw [List.filter_cons_of_neg (by simp [hxs]), List.filter_cons_of_neg (by simp [hxs])]
        exact ih hl hw
      · rw [List.filter_cons_of_pos (by simp [hxs]), List.filter_cons_of_pos (by simp [hxs, hxw]),
          List.map_cons, List.map_cons, List.sum_cons, List.sum_cons, ih hl hw, Nat.add_assoc]

/-- A destination that is still to be looked at is a vertex. -/
theorem pending_mem {g : FlowGraph} {root : Nat} (hg : g.WellFormed) {s : Search}
    (h : Inv g root s) {v w : Nat} {pending : List Nat} {rest : List Frame}
    (hs : s.stack = ⟨v, w :: pending⟩ :: rest) : w ∈ g.vertexIds := by
  obtain ⟨seen, hd, -⟩ := h.frames ⟨v, w :: pending⟩ (hs ▸ List.mem_cons_self)
  have hadj : g.Adj v w := (mem_destinations hg).1 (hd ▸ by simp)
  exact hadj.destination_mem hg

/-- Each step takes one off what remains to be done. -/
theorem remaining_step {g : FlowGraph} {root : Nat} {s : Search} (hg : g.WellFormed)
    (h : Inv g root s) (hne : s.stack ≠ []) : remaining g (s.step g) + 1 = remaining g s := by
  rcases h.step_cases with ⟨hs, -⟩ | ⟨v, rest, hs, he⟩ | ⟨v, w, pending, rest, hs, hw, he⟩ |
    ⟨v, w, pending, rest, hs, hw, he⟩
  · exact absurd hs hne
  · simp only [he, remaining, hs, leave, List.map_cons, List.sum_cons, List.length_nil]
    omega
  · have hsum := sum_filter_notMem_append (fun v => (destinations g v).length + 1)
      hg.vertexIds_nodup (pending_mem hg h hs) hw
    simp only [he, remaining, hs, enter, List.map_cons, List.sum_cons, List.length_cons, hsum]
    omega
  · simp only [he, remaining, hs, lookBack_preOrder, List.map_cons, List.sum_cons,
      List.length_cons]
    omega

/-- A search with enough steps comes to its end. -/
theorem stack_run_eq_nil {g : FlowGraph} {root : Nat} (hg : g.WellFormed) (steps : Nat)
    {s : Search} (h : Inv g root s) (hle : remaining g s ≤ steps) : (s.run g steps).stack = [] := by
  induction steps generalizing s with
  | zero =>
    by_contra hne
    have := remaining_step hg h hne
    omega
  | succ steps ih =>
    unfold run
    split
    · next hs => exact List.isEmpty_iff.1 hs
    · next hs =>
      have := remaining_step hg h fun e => hs (List.isEmpty_iff.2 e)
      exact ih (h.step hg) (by omega)

/-- The bound on the number of steps is the number of steps. -/
theorem remaining_start {g : FlowGraph} {root : Nat} (hg : g.WellFormed)
    (hroot : root ∈ g.vertexIds) :
    remaining g (start g root) = DepthFirstTree.stepBound g := by
  have hsum := sum_filter_notMem_append (fun v => (destinations g v).length + 1)
    hg.vertexIds_nodup hroot (List.not_mem_nil : root ∉ [])
  have hall : (g.vertexIds.map fun v => (destinations g v).length + 1).sum =
      g.vertexIds.length + g.edgesByVertex.length := by
    rw [hg.edgesByVertex_eq, List.length_flatMap, List.sum_map_add]
    simp [destinations, hg.successorEdges_eq, Nat.add_comm]
  have hlen : g.vertexIds.length = g.vertices.length := List.length_map _
  rw [hg.edgesByVertex_perm.length_eq, hlen] at hall
  simp only [List.contains_nil, Bool.not_false, List.filter_true, List.nil_append] at hsum
  simp only [remaining, start, DepthFirstTree.stepBound, List.map_cons, List.map_nil,
    List.sum_cons, List.sum_nil, ← hall, hsum]
  omega

end WorstCase.Search
