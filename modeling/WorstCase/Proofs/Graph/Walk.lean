import WorstCase.Proofs.Graph.Built

/-!
# Walks

A walk follows edges of a graph from one vertex to another (`FlowGraph.Walk`). Where only the
vertices on the way matter, `FlowGraph.Within` says that a walk stays among vertices with a
property; the two agree (`within_iff_exists_walk`).
-/

namespace WorstCase.FlowGraph

/-- An edge leads from `u` to `v`. -/
def Adj (g : FlowGraph) (u v : Nat) : Prop :=
  ∃ e ∈ g.edges, e.source = u ∧ e.destination = v

/-- The edges lead, each from where the one before has ended, from `u` to `v`. -/
def Walk (g : FlowGraph) : Nat → List Edge → Nat → Prop
  | u, [], v => u = v
  | u, e :: es, v => e ∈ g.edges ∧ e.source = u ∧ g.Walk e.destination es v

instance decidableWalk (g : FlowGraph) : (u : Nat) → (es : List Edge) → (v : Nat) →
    Decidable (g.Walk u es v)
  | u, [], v => inferInstanceAs (Decidable (u = v))
  | u, e :: es, v =>
    have := decidableWalk g e.destination es v
    inferInstanceAs (Decidable (e ∈ g.edges ∧ e.source = u ∧ g.Walk e.destination es v))

/-- The vertices that a walk from `u` comes to, `u` included. -/
def visited (u : Nat) (es : List Edge) : List Nat :=
  u :: es.map (·.destination)

/-- A walk leads from `u` to `v` among vertices with the property `P`. -/
inductive Within (g : FlowGraph) (P : Nat → Prop) : Nat → Nat → Prop
  | refl {u : Nat} (hu : P u) : Within g P u u
  | step {u w v : Nat} (hu : P u) (huw : g.Adj u w) (hwv : Within g P w v) : Within g P u v

variable {g : FlowGraph}

theorem Adj.source_mem (hg : g.WellFormed) {u v : Nat} (h : g.Adj u v) : u ∈ g.vertexIds := by
  obtain ⟨e, he, rfl, -⟩ := h
  exact hg.source_mem e he

theorem Adj.destination_mem (hg : g.WellFormed) {u v : Nat} (h : g.Adj u v) : v ∈ g.vertexIds := by
  obtain ⟨e, he, -, rfl⟩ := h
  exact hg.destination_mem e he

namespace Walk

theorem append {u v w : Nat} {es fs : List Edge} (h : g.Walk u es v) (h' : g.Walk v fs w) :
    g.Walk u (es ++ fs) w := by
  induction es generalizing u with
  | nil => cases h; exact h'
  | cons e es ih =>
    obtain ⟨he, hs, h⟩ := h
    exact ⟨he, hs, ih h⟩

theorem mem_edges {u v : Nat} {es : List Edge} (h : g.Walk u es v) : ∀ e ∈ es, e ∈ g.edges := by
  induction es generalizing u with
  | nil => intro e he; cases he
  | cons d es ih =>
    intro e he
    rcases List.mem_cons.1 he with rfl | he
    · exact h.1
    · exact ih h.2.2 e he

end Walk

namespace Within

variable {P Q : Nat → Prop}

theorem left {u v : Nat} (h : g.Within P u v) : P u := by
  cases h with
  | refl hu => exact hu
  | step hu _ _ => exact hu

theorem right {u v : Nat} (h : g.Within P u v) : P v := by
  induction h with
  | refl hu => exact hu
  | step _ _ _ ih => exact ih

theorem mono (hPQ : ∀ v, P v → Q v) {u v : Nat} (h : g.Within P u v) : g.Within Q u v := by
  induction h with
  | refl hu => exact .refl (hPQ _ hu)
  | step hu huw _ ih => exact .step (hPQ _ hu) huw ih

theorem trans {u v w : Nat} (h : g.Within P u v) (h' : g.Within P v w) : g.Within P u w := by
  induction h with
  | refl _ => exact h'
  | step hu huw _ ih => exact .step hu huw (ih h')

/-- The walk goes on along one more edge. -/
theorem tail {u v w : Nat} (h : g.Within P u v) (hvw : g.Adj v w) (hw : P w) : g.Within P u w :=
  h.trans (.step h.right hvw (.refl hw))

end Within

/-- To get somewhere within a set is to have a walk that stays in it. -/
theorem within_iff_exists_walk {P : Nat → Prop} {u v : Nat} :
    g.Within P u v ↔ ∃ es, g.Walk u es v ∧ ∀ x ∈ visited u es, P x := by
  constructor
  · intro h
    induction h with
    | refl hu => exact ⟨[], rfl, by simpa [visited] using hu⟩
    | step hu huw _ ih =>
      obtain ⟨es, hes, hP⟩ := ih
      obtain ⟨e, he, rfl, rfl⟩ := huw
      refine ⟨e :: es, ⟨he, rfl, hes⟩, fun x hx => ?_⟩
      rcases List.mem_cons.1 hx with rfl | hx
      · exact hu
      · exact hP x hx
  · rintro ⟨es, hes, hP⟩
    induction es generalizing u with
    | nil => cases hes; exact .refl (hP _ List.mem_cons_self)
    | cons e es ih =>
      obtain ⟨he, rfl, hes⟩ := hes
      exact .step (hP _ List.mem_cons_self) ⟨e, he, rfl, rfl⟩
        (ih hes fun x hx => hP x (List.mem_cons_of_mem _ hx))

/-- Every vertex can be reached from the entry. -/
def Connected (g : FlowGraph) (entry : Nat) : Prop :=
  ∀ v ∈ g.vertexIds, ∃ es, g.Walk entry es v

end WorstCase.FlowGraph
