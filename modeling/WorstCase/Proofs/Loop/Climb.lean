import Mathlib.Logic.Relation
import WorstCase.Loop.Nest
import WorstCase.Proofs.Graph.Built

/-!
# Climbing a map to parents

A list of pairs is read as a map from vertices to parents. `Climbs m v h` says that `h` is `v`, its
parent, the parent of that, and so on. When every parent ranks below its child the way up ends, and
the functions that walk it with a bounded number of steps find all of it: more steps do not make
`ancestorsIn` longer (`ancestorsIn_eq_of_reach_le`), and `Collapse.find` gives the end of the way
(`climbs_find`, `lookup_find`).
-/

namespace WorstCase

open Relation

/-- `p` is the parent of `v`. -/
def Up (m : List (Nat × Nat)) (v p : Nat) : Prop :=
  m.lookup v = some p

/-- `h` is `v` or on the way up from it. -/
def Climbs (m : List (Nat × Nat)) (v h : Nat) : Prop :=
  ReflTransGen (Up m) v h

/-- Every parent ranks below its child. -/
def Ranked (rank : Nat → Nat) (m : List (Nat × Nat)) : Prop :=
  ∀ q ∈ m, rank q.2 < rank q.1

theorem Up.mem {m : List (Nat × Nat)} {v p : Nat} (h : Up m v p) : (v, p) ∈ m :=
  mem_of_lookup h

theorem up_unique {m : List (Nat × Nat)} {v p q : Nat} (hp : Up m v p) (hq : Up m v q) : p = q :=
  Option.some.inj (hp.symm.trans hq)

/-- In a map with one entry for each key, every entry is found. -/
theorem up_of_mem {m : List (Nat × Nat)} (hm : (m.map (·.1)).Nodup) {v p : Nat}
    (h : (v, p) ∈ m) : Up m v p := by
  induction m with
  | nil => cases h
  | cons q m ih =>
    obtain ⟨w, r⟩ := q
    obtain ⟨hw, hm'⟩ := List.nodup_cons.1 hm
    rcases List.mem_cons.1 h with he | hq
    · cases he
      exact List.lookup_cons_self
    · have hv : v ≠ w := by
        rintro rfl
        exact hw (List.mem_map.2 ⟨_, hq, rfl⟩)
      have hb : (v == w) = false := beq_eq_false_iff_ne.2 hv
      simp only [Up, List.lookup_cons, hb]
      exact ih hm' hq

/-- What the first of two maps does not have is looked up in the second. -/
theorem up_append {m m' : List (Nat × Nat)} {v p : Nat} :
    Up (m ++ m') v p ↔ Up m v p ∨ (m.lookup v = none ∧ Up m' v p) := by
  simp only [Up, List.lookup_append, Option.or_eq_some_iff]

theorem up_map_const {vs : List Nat} {h v p : Nat} :
    Up (vs.map fun v => (v, h)) v p ↔ v ∈ vs ∧ p = h := by
  constructor
  · intro hup
    obtain ⟨w, hw, he⟩ := List.mem_map.1 hup.mem
    cases he
    exact ⟨hw, rfl⟩
  · rintro ⟨hv, rfl⟩
    induction vs with
    | nil => cases hv
    | cons w vs ih =>
      by_cases hvw : v = w
      · subst hvw
        exact List.lookup_cons_self
      · have hb : (v == w) = false := beq_eq_false_iff_ne.2 hvw
        simp only [Up, List.map_cons, List.lookup_cons, hb]
        exact ih ((List.mem_cons.1 hv).resolve_left hvw)

namespace Climbs

variable {m m' : List (Nat × Nat)}

theorem refl (v : Nat) : Climbs m v v :=
  ReflTransGen.refl

theorem trans {v h k : Nat} (hv : Climbs m v h) (hh : Climbs m h k) : Climbs m v k :=
  ReflTransGen.trans hv hh

theorem of_up {v p : Nat} (h : Up m v p) : Climbs m v p :=
  ReflTransGen.single h

/-- More entries behind the others leave the way up as far as it went. -/
theorem append {v h : Nat} (hv : Climbs m v h) : Climbs (m ++ m') v h :=
  ReflTransGen.mono (fun _ _ hup => up_append.2 (Or.inl hup)) _ _ hv

/-- The vertices on one way up can be told apart by which leads to which. -/
theorem total {v h k : Nat} (hh : Climbs m v h) (hk : Climbs m v k) :
    Climbs m h k ∨ Climbs m k h :=
  ReflTransGen.total_of_right_unique (fun _ _ _ => up_unique) hh hk

theorem eq_of_lookup_none {v h : Nat} (hv : Climbs m v h) (hn : m.lookup v = none) : h = v := by
  rcases ReflTransGen.cases_head hv with rfl | ⟨p, hp, -⟩
  · rfl
  · rw [Up, hn] at hp
    cases hp

/-- The way up has a last step. -/
theorem last {v h : Nat} (hv : Climbs m v h) (hne : v ≠ h) : ∃ w, Climbs m v w ∧ Up m w h := by
  rcases ReflTransGen.cases_tail hv with rfl | ⟨w, hw, hup⟩
  · exact absurd rfl hne
  · exact ⟨w, hw, hup⟩

/-- A property that passes from parents to children passes down the way. -/
theorem down {P : Nat → Prop} (hstep : ∀ v p, Up m v p → P p → P v) {v h : Nat}
    (hv : Climbs m v h) (hh : P h) : P v := by
  induction hv using ReflTransGen.head_induction_on with
  | refl => exact hh
  | head hup _ ih => exact hstep _ _ hup ih

end Climbs

/-! ## Bounded climbs -/

section Ranked

variable {rank : Nat → Nat} {m : List (Nat × Nat)}

/-- The entries whose keys rank no higher than `v`; they bound the way up from `v`. -/
def reach (rank : Nat → Nat) (m : List (Nat × Nat)) (v : Nat) : Nat :=
  m.countP fun q => decide (rank q.1 ≤ rank v)

theorem reach_pos (rank : Nat → Nat) {v p : Nat} (h : Up m v p) : 0 < reach rank m v :=
  List.countP_pos_iff.2 ⟨(v, p), h.mem, by simp⟩

theorem reach_lt (hr : Ranked rank m) {v p : Nat} (h : Up m v p) :
    reach rank m p < reach rank m v := by
  have hlt : rank p < rank v := hr _ h.mem
  obtain ⟨l₁, l₂, he, -⟩ := List.lookup_eq_some_iff.1 h
  have hmono : ∀ l : List (Nat × Nat), reach rank l p ≤ reach rank l v := fun l =>
    List.countP_mono_left fun q _ hq => by
      simp only [decide_eq_true_eq] at hq ⊢
      omega
  have h₁ := hmono l₁
  have h₂ := hmono l₂
  simp only [reach] at h₁ h₂ ⊢
  rw [he]
  simp only [List.countP_append, List.countP_cons, Nat.le_refl, decide_true, ↓reduceIte,
    Nat.not_le_of_lt hlt, decide_false, Bool.false_eq_true]
  omega

/-- More steps than the way is long change nothing. -/
theorem ancestorsIn_eq_of_reach_le (hr : Ranked rank m) {n k v : Nat} (hn : reach rank m v ≤ n)
    (hk : reach rank m v ≤ k) : ancestorsIn m n v = ancestorsIn m k v := by
  induction n generalizing k v with
  | zero =>
    have hv : m.lookup v = none := by
      cases hv : m.lookup v with
      | none => rfl
      | some p =>
        have := reach_pos rank (show Up m v p from hv)
        omega
    cases k with
    | zero => rfl
    | succ k => simp only [ancestorsIn, hv]
  | succ n ih =>
    cases hv : m.lookup v with
    | none =>
      cases k with
      | zero => simp only [ancestorsIn, hv]
      | succ k => simp only [ancestorsIn, hv]
    | some p =>
      have hlt := reach_lt hr (show Up m v p from hv)
      cases k with
      | zero => omega
      | succ k => simp only [ancestorsIn, hv, ih (show reach rank m p ≤ n by omega)
          (show reach rank m p ≤ k by omega)]

theorem ancestorsIn_of_lookup_none {v : Nat} (hv : m.lookup v = none) (n : Nat) :
    ancestorsIn m n v = [] := by
  cases n with
  | zero => rfl
  | succ n => simp only [ancestorsIn, hv]

theorem ancestorsIn_of_up (hr : Ranked rank m) {v p : Nat} (h : Up m v p) :
    ancestorsIn m m.length v = p :: ancestorsIn m m.length p := by
  have hlt := reach_lt hr h
  have hle : reach rank m v ≤ m.length := List.countP_le_length
  obtain ⟨k, hk⟩ : ∃ k, m.length = k + 1 := ⟨m.length - 1, by omega⟩
  have hp : ancestorsIn m k p = ancestorsIn m m.length p :=
    ancestorsIn_eq_of_reach_le hr (by omega) List.countP_le_length
  rw [← hp, hk]
  simp only [ancestorsIn, show m.lookup v = some p from h]

theorem head?_ancestorsIn (hr : Ranked rank m) (v : Nat) :
    (ancestorsIn m m.length v).head? = m.lookup v := by
  cases hv : m.lookup v with
  | none => rw [ancestorsIn_of_lookup_none hv, List.head?_nil]
  | some p => rw [ancestorsIn_of_up hr hv, List.head?_cons]

/-- With steps enough, the last of the ancestors is where the way up ends. -/
theorem getLastD_ancestorsIn (hr : Ranked rank m) {n v : Nat} (hn : reach rank m v ≤ n) :
    Climbs m v ((ancestorsIn m n v).getLastD v) ∧
      m.lookup ((ancestorsIn m n v).getLastD v) = none := by
  induction n generalizing v with
  | zero =>
    refine ⟨.refl v, ?_⟩
    cases hv : m.lookup v with
    | none => exact hv
    | some p =>
      have := reach_pos rank (show Up m v p from hv)
      omega
  | succ n ih =>
    cases hv : m.lookup v with
    | none =>
      simp only [ancestorsIn, hv, List.getLastD_nil, and_true]
      exact .refl v
    | some p =>
      have hlt := reach_lt hr (show Up m v p from hv)
      have hp := ih (show reach rank m p ≤ n by omega)
      simp only [ancestorsIn, hv, List.getLastD_cons]
      exact ⟨(Climbs.of_up hv).trans hp.1, hp.2⟩

/-- The header that stands for a vertex is on the way up from it. -/
theorem climbs_find (hr : Ranked rank m) (v : Nat) : Climbs m v (Collapse.find m v) :=
  (getLastD_ancestorsIn hr List.countP_le_length).1

/-- The header that stands for a vertex has not been collapsed. -/
theorem lookup_find (hr : Ranked rank m) (v : Nat) : m.lookup (Collapse.find m v) = none :=
  (getLastD_ancestorsIn hr List.countP_le_length).2

end Ranked

end WorstCase
