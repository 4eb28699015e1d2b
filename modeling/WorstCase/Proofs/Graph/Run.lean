import Mathlib.Data.List.TakeWhile
import WorstCase.Proofs.Graph.Walk

/-!
# Runs and their stretches

A run is a walk from the entry that returns to it once, as its last step, or that ends where nothing
goes on, if nothing leads to the entry. A stretch of a walk is a longest part of it among vertices
of a set (`IsStretch`). Edges that are taken at most `b` times in each stretch are taken at most `b`
times for each edge that enters the set (`countP_le_mul_comesIn`), and a walk that starts and ends
outside the set enters it as often as it leaves it (`countP_comesIn_eq`).
-/

namespace WorstCase.FlowGraph

variable {g : FlowGraph} {inside : Nat → Bool} {u v : Nat} {es : List Edge}

inductive Run (g : FlowGraph) (entry : Nat) : List Edge → Prop
  | returning {es : List Edge} {e : Edge} (hw : g.Walk entry (es ++ [e]) entry)
      (hfirst : ∀ d ∈ es, d.destination ≠ entry) : Run g entry (es ++ [e])
  | ending {es : List Edge} {v : Nat} (hw : g.Walk entry es v)
      (hin : ∀ e ∈ g.edges, e.destination ≠ entry) (hout : ∀ e ∈ g.edges, e.source ≠ v) :
      Run g entry es

/-- A run goes back to the entry, or from where nothing comes to where nothing goes on. -/
theorem Run.exists_walk {entry : Nat} (h : g.Run entry es) : ∃ v, g.Walk entry es v ∧
    (v = entry ∨ (∀ e ∈ g.edges, e.destination ≠ entry) ∧ ∀ e ∈ g.edges, e.source ≠ v) := by
  cases h with
  | returning hw hfirst => exact ⟨entry, hw, Or.inl rfl⟩
  | ending hw hin hout => exact ⟨_, hw, Or.inr ⟨hin, hout⟩⟩

/-! ## Stretches -/

/-- The edge joins two vertices of the set. -/
def stays (inside : Nat → Bool) (e : Edge) : Bool :=
  inside e.source && inside e.destination

def comesIn (inside : Nat → Bool) (e : Edge) : Bool :=
  !inside e.source && inside e.destination

def goesOut (inside : Nat → Bool) (e : Edge) : Bool :=
  inside e.source && !inside e.destination

/-- The middle part of a walk stays in the set, and cannot be made longer in either direction. -/
structure StretchAt (inside : Nat → Bool) (before stretch after : List Edge) : Prop where
  stays : ∀ e ∈ stretch, stays inside e
  starts : ∀ e, before.getLast? = some e → inside e.source = false
  ends : ∀ e, after.head? = some e → inside e.destination = false

/-- A maximal stretch of the walk among the vertices of the set. -/
def IsStretch (inside : Nat → Bool) (es stretch : List Edge) : Prop :=
  ∃ before after, es = before ++ stretch ++ after ∧ StretchAt inside before stretch after

theorem IsStretch.sublist {stretch : List Edge} (h : IsStretch inside es stretch) :
    stretch.Sublist es := by
  obtain ⟨before, after, rfl, -⟩ := h
  exact (List.sublist_append_right _ _).trans (List.sublist_append_left _ _)

/-- A walk that starts in the set leaves it with the first edge that does not stay. -/
theorem source_of_head?_dropWhile (hw : g.Walk u es v) (hu : inside u) {e : Edge}
    (he : (es.dropWhile (stays inside)).head? = some e) : inside e.source := by
  induction es generalizing u with
  | nil => cases he
  | cons d es ih =>
    obtain ⟨-, rfl, hw⟩ := hw
    rw [List.dropWhile_cons] at he
    split at he
    · next hd =>
      simp only [stays, Bool.and_eq_true] at hd
      exact ih hw hd.2 he
    · cases he
      exact hu

/-- Coming in starts a stretch, which lasts as long as the run stays inside. -/
theorem stretchAt_takeWhile {e : Edge} (hw : g.Walk e.destination es v)
    (he : comesIn inside e) :
    StretchAt inside [e] (es.takeWhile (stays inside)) (es.dropWhile (stays inside)) := by
  simp only [comesIn, Bool.and_eq_true, Bool.not_eq_true'] at he
  refine ⟨fun d hd => List.mem_takeWhile_imp hd, fun d hd => ?_, fun d hd => ?_⟩
  · cases hd
    exact he.1
  · have hsource := source_of_head?_dropWhile hw he.2 hd
    have hd' := List.head?_dropWhile_not (stays inside) es
    rw [hd] at hd'
    simpa only [stays, hsource, Bool.true_and, Bool.not_eq_true'] using hd'

theorem takeWhile_stays_of_outside (hw : g.Walk u es v) (hu : inside u = false) :
    es.takeWhile (stays inside) = [] := by
  cases es with
  | nil => rfl
  | cons e es =>
    obtain ⟨-, rfl, -⟩ := hw
    simp only [List.takeWhile_cons, stays, hu, Bool.false_and, Bool.false_eq_true, ↓reduceIte]

/-- The count over a walk is the count over its first stretch and those that begin later. -/
theorem countP_le_takeWhile_add {marked : Edge → Bool} {b : Nat} (hw : g.Walk u es v)
    (hmark : ∀ e ∈ es, marked e → stays inside e)
    (hb : ∀ before stretch after, before ≠ [] → es = before ++ stretch ++ after →
      StretchAt inside before stretch after → stretch.countP marked ≤ b) :
    es.countP marked ≤
      (es.takeWhile (stays inside)).countP marked + b * es.countP (comesIn inside) := by
  induction es generalizing u with
  | nil => simp only [List.countP_nil, List.takeWhile_nil, Nat.mul_zero, Nat.le_refl]
  | cons e es ih =>
    obtain ⟨-, rfl, hw⟩ := hw
    have hrest := ih hw (fun d hd => hmark d (List.mem_cons_of_mem _ hd))
      fun before stretch after hne heq hst => by
        refine hb (e :: before) stretch after (List.cons_ne_nil _ _) (by rw [heq]; rfl)
          ⟨hst.stays, fun d hd => hst.starts d ?_, hst.ends⟩
        rwa [List.getLast?_cons_of_ne_nil hne] at hd
    cases hs : stays inside e with
    | true =>
      have hin : comesIn inside e = false := by
        simp only [stays, Bool.and_eq_true] at hs
        simp only [comesIn, hs.1, Bool.not_true, Bool.false_and]
      simp only [List.takeWhile_cons, hs, ↓reduceIte, List.countP_cons, hin, Bool.false_eq_true,
        Nat.add_zero]
      omega
    | false =>
      have hm : marked e = false := Bool.eq_false_iff.2 fun hm => by
        rw [hmark e List.mem_cons_self hm] at hs
        cases hs
      simp only [List.takeWhile_cons, hs, Bool.false_eq_true, ↓reduceIte, List.countP_cons, hm,
        List.countP_nil, Nat.add_zero, Nat.zero_add]
      cases hin : comesIn inside e with
      | true =>
        -- a new stretch begins
        have hst := hb [e] _ _ (List.cons_ne_nil _ _)
          (by rw [List.append_assoc, List.takeWhile_append_dropWhile]; rfl)
          (stretchAt_takeWhile hw hin)
        simp only [↓reduceIte, Nat.mul_add, Nat.mul_one]
        omega
      | false =>
        have hout : inside e.destination = false := by
          cases hsrc : inside e.source <;> simp_all [stays, comesIn]
        rw [takeWhile_stays_of_outside hw hout, List.countP_nil] at hrest
        simp only [Bool.false_eq_true, ↓reduceIte, Nat.add_zero]
        omega

/-- Edges that are taken at most `b` times in each stretch are taken at most `b` times for each time
that the walk comes in. -/
theorem countP_le_mul_comesIn {marked : Edge → Bool} {b : Nat} (hw : g.Walk u es v)
    (hu : inside u = false) (hmark : ∀ e ∈ es, marked e → stays inside e)
    (hb : ∀ stretch, IsStretch inside es stretch → stretch.countP marked ≤ b) :
    es.countP marked ≤ b * es.countP (comesIn inside) := by
  have h := countP_le_takeWhile_add hw hmark fun before stretch after _ heq hst =>
    hb stretch ⟨before, after, heq, hst⟩
  rwa [takeWhile_stays_of_outside hw hu, List.countP_nil, Nat.zero_add] at h

/-! ## Coming and going -/

/-- A walk comes to the vertices of a set as often as it goes on from them, but for its ends. -/
theorem countP_destination_add (hw : g.Walk u es v) (inside : Nat → Bool) :
    es.countP (fun e => inside e.destination) + (inside u).toNat =
      es.countP (fun e => inside e.source) + (inside v).toNat := by
  induction es generalizing u with
  | nil =>
    cases hw
    rfl
  | cons e es ih =>
    obtain ⟨-, rfl, hw⟩ := hw
    have hrest := ih hw
    rw [List.countP_cons, List.countP_cons]
    cases hs : inside e.source <;> cases hd : inside e.destination <;>
      simp only [hd, Bool.toNat_true, Bool.toNat_false, Bool.false_eq_true, ↓reduceIte]
        at hrest ⊢ <;> omega

theorem countP_split (q r : Edge → Bool) (es : List Edge) : es.countP q =
    es.countP (fun e => q e && r e) + es.countP (fun e => q e && !r e) := by
  rw [List.countP_eq_countP_filter_add es q r, List.countP_filter, List.countP_filter]

/-- A run from outside to outside goes out as often as it comes in. -/
theorem countP_comesIn_eq (hw : g.Walk u es v) (hu : inside u = false) (hv : inside v = false) :
    es.countP (comesIn inside) = es.countP (goesOut inside) := by
  have hwalk := countP_destination_add hw inside
  have hin := countP_split (fun e => inside e.destination) (fun e => inside e.source) es
  have hout := countP_split (fun e => inside e.source) (fun e => inside e.destination) es
  simp only [Bool.and_comm (inside (Edge.destination _))] at hin
  rw [hu, hv, hin, hout] at hwalk
  exact Nat.add_left_cancel hwalk

end WorstCase.FlowGraph
