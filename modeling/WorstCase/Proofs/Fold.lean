import Mathlib.Data.List.Forall2

/-!
# Computations that can fail

What a computation that can fail has done, told from its outcome: for two steps in a row
(`bind_ok`), for one step on each entry of a list (`mapM_ok`, `mapM_eq_ok_iff`), and for a fold,
each of whose steps has succeeded (`exists_step_of_foldlM`) and where a property that each step
keeps holds of the outcome (`foldlM_ok_induction`). A fold whose steps cannot fail does not fail
(`exists_foldlM_ok`, `exists_foldlM_ok_of_invariant`), and one that fails has the error of one of
its steps (`exists_error_of_foldlM`). A fold each of whose steps computes something and adds it to
the state computes all of it and adds it in order (`foldlM_eq_map_mapM`). Steps that all succeed do
what the computation without failures does (`mapM_eq_ok_map`, `foldlM_eq_ok_foldl`,
`findM?_eq_ok_find?`).
-/

namespace WorstCase

theorem bind_ok {ε α β : Type} {x : Except ε α} {f : α → Except ε β} {b : β}
    (h : (x >>= f) = .ok b) : ∃ a, x = .ok a ∧ f a = .ok b := by
  cases x with
  | error e => cases h
  | ok a => exact ⟨a, rfl, h⟩

theorem ok_bind {ε α β : Type} (a : α) (f : α → Except ε β) : ((.ok a : Except ε α) >>= f) = f a :=
  rfl

/-- Every entry has been made. -/
theorem mapM_ok {ε ι β : Type} {f : ι → Except ε β} {xs : List ι} {ys : List β}
    (h : xs.mapM f = .ok ys) : xs.map f = ys.map .ok := by
  induction xs generalizing ys with
  | nil =>
    cases h
    rfl
  | cons x xs ih =>
    rw [List.mapM_cons] at h
    obtain ⟨y, hy, h⟩ := bind_ok h
    obtain ⟨ys', hys, h⟩ := bind_ok h
    cases h
    rw [List.map_cons, List.map_cons, hy, ih hys]

theorem exists_mem_of_mapM {ε ι β : Type} {f : ι → Except ε β} {xs : List ι} {ys : List β}
    (h : xs.mapM f = .ok ys) {x : ι} (hx : x ∈ xs) : ∃ y ∈ ys, f x = .ok y := by
  have hmem : f x ∈ ys.map .ok := mapM_ok h ▸ List.mem_map_of_mem hx
  obtain ⟨y, hy, heq⟩ := List.mem_map.1 hmem
  exact ⟨y, hy, heq.symm⟩

theorem exists_step_of_mapM {ε ι β : Type} {f : ι → Except ε β} {xs : List ι} {ys : List β}
    (h : xs.mapM f = .ok ys) {y : β} (hy : y ∈ ys) : ∃ x ∈ xs, f x = .ok y := by
  have hmem : .ok y ∈ xs.map f := mapM_ok h ▸ List.mem_map_of_mem hy
  exact List.mem_map.1 hmem

/-- One step on each entry succeeds exactly if it succeeds on every entry. -/
theorem mapM_eq_ok_iff {ε ι β : Type} {f : ι → Except ε β} {xs : List ι} {ys : List β} :
    xs.mapM f = .ok ys ↔ List.Forall₂ (fun x y => f x = .ok y) xs ys := by
  induction xs generalizing ys with
  | nil =>
    rw [List.forall₂_nil_left_iff]
    exact ⟨fun h => (Except.ok.inj h).symm, fun h => h ▸ rfl⟩
  | cons x xs ih =>
    rw [List.forall₂_cons_left_iff, List.mapM_cons]
    constructor
    · intro h
      obtain ⟨y, hy, h⟩ := bind_ok h
      obtain ⟨ys', hys, h⟩ := bind_ok h
      exact ⟨y, ys', hy, ih.1 hys, (Except.ok.inj h).symm⟩
    · rintro ⟨y, ys', hy, hys, rfl⟩
      rw [hy, ih.2 hys]
      rfl

theorem exists_error_of_mapM {ε ι β : Type} {f : ι → Except ε β} {xs : List ι} {e : ε}
    (h : xs.mapM f = .error e) : ∃ x ∈ xs, f x = .error e := by
  induction xs with
  | nil => cases h
  | cons x xs ih =>
    rw [List.mapM_cons] at h
    cases hx : f x with
    | error e' =>
      rw [hx] at h
      cases h
      exact ⟨x, List.mem_cons_self, hx⟩
    | ok y =>
      cases hxs : xs.mapM f with
      | error e' =>
        rw [hx, hxs] at h
        cases h
        obtain ⟨x', hx', hf⟩ := ih hxs
        exact ⟨x', List.mem_cons_of_mem _ hx', hf⟩
      | ok ys =>
        rw [hx, hxs] at h
        cases h

/-- A step that succeeds wherever another one does, with a related outcome, succeeds on each entry
of a list where the other one does, with related outcomes. -/
theorem exists_mapM_forall₂ {ε ι β : Type} {f f' : ι → Except ε β} {R : β → β → Prop} {xs : List ι}
    {ys : List β} (hstep : ∀ x ∈ xs, ∀ y, f x = .ok y → ∃ y', f' x = .ok y' ∧ R y y')
    (h : xs.mapM f = .ok ys) : ∃ ys', xs.mapM f' = .ok ys' ∧ List.Forall₂ R ys ys' := by
  rw [mapM_eq_ok_iff] at h
  induction h with
  | nil => exact ⟨[], rfl, .nil⟩
  | @cons x y xs ys hx hxs ih =>
    obtain ⟨y', hy', hR⟩ := hstep x List.mem_cons_self y hx
    obtain ⟨ys', hys', hRs⟩ := ih fun x' hx' => hstep x' (List.mem_cons_of_mem _ hx')
    refine ⟨y' :: ys', ?_, .cons hR hRs⟩
    rw [List.mapM_cons, hy', hys']
    rfl

/-- A property of what has been folded so far and of the state passes along a fold. -/
theorem foldlM_ok_induction {ε β ι : Type} {f : β → ι → Except ε β} {P : List ι → β → Prop}
    {b b' : β} {xs : List ι} (hnil : P [] b)
    (hstep : ∀ done x c c', x ∈ xs → P done c → f c x = .ok c' → P (done ++ [x]) c')
    (h : xs.foldlM f b = .ok b') : P xs b' := by
  -- the property is carried along with the part of the list that has been folded
  have key : ∀ (done todo : List ι) (c : β), (∀ x ∈ todo, x ∈ xs) → P done c →
      todo.foldlM f c = .ok b' → P (done ++ todo) b' := by
    intro done todo
    induction todo generalizing done with
    | nil =>
      intro c _ hc hb
      cases hb
      rwa [List.append_nil]
    | cons x todo ih =>
      intro c hsub hc hb
      rw [List.foldlM_cons] at hb
      obtain ⟨c', hx, hb⟩ := bind_ok hb
      have hx' := hstep done x c c' (hsub x List.mem_cons_self) hc hx
      have := ih (done ++ [x]) c' (fun y hy => hsub y (List.mem_cons_of_mem _ hy)) hx' hb
      rwa [List.append_assoc, List.singleton_append] at this
  exact key [] xs b (fun _ hx => hx) hnil h

theorem exists_step_of_foldlM {ε β ι : Type} {f : β → ι → Except ε β} {b b' : β} {xs : List ι}
    (h : xs.foldlM f b = .ok b') : ∀ x ∈ xs, ∃ c c', f c x = .ok c' := by
  refine foldlM_ok_induction (P := fun done _ => ∀ x ∈ done, ∃ c c', f c x = .ok c')
    (fun x hx => absurd hx List.not_mem_nil) ?_ h
  intro done x c c' _ hdone hx y hy
  rcases List.mem_append.1 hy with hy | hy
  · exact hdone y hy
  · rw [List.mem_singleton.1 hy]
    exact ⟨c, c', hx⟩

theorem exists_foldlM_ok {ε β ι : Type} {f : β → ι → Except ε β} {xs : List ι}
    (hstep : ∀ x ∈ xs, ∀ c, ∃ c', f c x = .ok c') (b : β) : ∃ b', xs.foldlM f b = .ok b' := by
  induction xs generalizing b with
  | nil => exact ⟨b, rfl⟩
  | cons x xs ih =>
    obtain ⟨c, hc⟩ := hstep x List.mem_cons_self b
    obtain ⟨b', hb'⟩ := ih (fun y hy => hstep y (List.mem_cons_of_mem _ hy)) c
    refine ⟨b', ?_⟩
    rw [List.foldlM_cons, hc]
    exact hb'

/-- Nor does it fail where the steps cannot fail in states with a property that they keep. -/
theorem exists_foldlM_ok_of_invariant {ε β ι : Type} {f : β → ι → Except ε β} {P : β → Prop} {b : β}
    {xs : List ι} (hb : P b) (hstep : ∀ x ∈ xs, ∀ c, P c → ∃ c', f c x = .ok c' ∧ P c') :
    ∃ b', xs.foldlM f b = .ok b' ∧ P b' := by
  induction xs generalizing b with
  | nil => exact ⟨b, rfl, hb⟩
  | cons x xs ih =>
    obtain ⟨c, hc, hP⟩ := hstep x List.mem_cons_self b hb
    obtain ⟨b', hb', hP'⟩ := ih hP fun y hy => hstep y (List.mem_cons_of_mem _ hy)
    refine ⟨b', ?_, hP'⟩
    rw [List.foldlM_cons, hc]
    exact hb'

/-- Where a property of the state is kept, the step that fails has been made in a state that has
it. -/
theorem exists_error_step_of_foldlM {ε β ι : Type} {f : β → ι → Except ε β} {P : β → Prop} {b : β}
    {xs : List ι} {e : ε} (hb : P b) (hstep : ∀ x ∈ xs, ∀ c c', P c → f c x = .ok c' → P c')
    (h : xs.foldlM f b = .error e) : ∃ x ∈ xs, ∃ c, P c ∧ f c x = .error e := by
  induction xs generalizing b with
  | nil => cases h
  | cons x xs ih =>
    rw [List.foldlM_cons] at h
    cases hx : f b x with
    | error e' =>
      rw [hx] at h
      cases h
      exact ⟨x, List.mem_cons_self, b, hb, hx⟩
    | ok c =>
      rw [hx] at h
      obtain ⟨y, hy, c', hc'⟩ := ih (hstep x List.mem_cons_self b c hb hx)
        (fun y hy => hstep y (List.mem_cons_of_mem _ hy)) h
      exact ⟨y, List.mem_cons_of_mem _ hy, c', hc'⟩

theorem exists_error_of_foldlM {ε β ι : Type} {f : β → ι → Except ε β} {b : β} {xs : List ι} {e : ε}
    (h : xs.foldlM f b = .error e) : ∃ x ∈ xs, ∃ c, f c x = .error e := by
  obtain ⟨x, hx, c, -, hc⟩ :=
    exists_error_step_of_foldlM (P := fun _ => True) trivial (fun _ _ _ _ _ _ => trivial) h
  exact ⟨x, hx, c, hc⟩

/-- A fold whose state is what has been computed so far computes each element on its own. -/
theorem foldlM_eq_map_mapM {ε β ι γ : Type} {f : β → ι → Except ε β} (step : ι → Except ε γ)
    (state : List γ → β) (xs : List ι)
    (hstep : ∀ x ∈ xs, ∀ done, f (state done) x = (step x).map fun y => state (done ++ [y]))
    (done : List γ) :
    xs.foldlM f (state done) = (xs.mapM step).map fun ys => state (done ++ ys) := by
  induction xs generalizing done with
  | nil =>
    rw [List.foldlM_nil, List.mapM_nil]
    exact congrArg (fun done => Except.ok (state done)) (List.append_nil done).symm
  | cons x xs ih =>
    rw [List.foldlM_cons, List.mapM_cons, hstep x List.mem_cons_self]
    cases hx : step x with
    | error e => rfl
    | ok y =>
      have hrest := ih (fun x' hx' => hstep x' (List.mem_cons_of_mem _ hx')) (done ++ [y])
      refine Eq.trans hrest ?_
      cases hxs : xs.mapM step with
      | error e => rfl
      | ok ys => exact congrArg (fun done => Except.ok (state done)) (List.append_assoc done [y] ys)

theorem foldlM_congr {ε β ι : Type} {f f' : β → ι → Except ε β} {xs : List ι}
    (h : ∀ x ∈ xs, ∀ c, f c x = f' c x) (b : β) : xs.foldlM f b = xs.foldlM f' b := by
  induction xs generalizing b with
  | nil => rfl
  | cons x xs ih =>
    have hrest : xs.foldlM f = xs.foldlM f' :=
      funext fun c => ih (fun y hy => h y (List.mem_cons_of_mem _ hy)) c
    rw [List.foldlM_cons, List.foldlM_cons, h x List.mem_cons_self, hrest]

theorem mapM_eq_ok_map {ε ι β : Type} {f : ι → Except ε β} {k : ι → β} {xs : List ι}
    (h : ∀ x ∈ xs, f x = .ok (k x)) : xs.mapM f = .ok (xs.map k) :=
  mapM_eq_ok_iff.2 (List.forall₂_map_right_iff.2 (List.forall₂_same.2 h))

theorem mapM_map_eq_ok {ε ι κ β : Type} {f : κ → Except ε β} {g : ι → κ} {k : ι → β} {xs : List ι}
    (h : ∀ x ∈ xs, f (g x) = .ok (k x)) : (xs.map g).mapM f = .ok (xs.map k) := by
  rw [List.mapM_map]
  exact mapM_eq_ok_map h

/-- A fold that follows another one whose steps cannot fail. -/
theorem foldlM_eq_ok_foldl {ε σ τ ι : Type} {f : τ → ι → Except ε τ} {g : σ → ι → σ} (rep : σ → τ)
    (P : σ → Prop) {xs : List ι} {s : σ} (hs : P s)
    (hstep : ∀ x ∈ xs, ∀ s, P s → f (rep s) x = .ok (rep (g s x)) ∧ P (g s x)) :
    xs.foldlM f (rep s) = .ok (rep (xs.foldl g s)) ∧ P (xs.foldl g s) := by
  induction xs generalizing s with
  | nil => exact ⟨rfl, hs⟩
  | cons x xs ih =>
    rw [List.forall_mem_cons] at hstep
    obtain ⟨hf, hP⟩ := hstep.1 s hs
    rw [List.foldlM_cons, hf]
    exact ih hP hstep.2

theorem findM?_eq_ok_find? {ε ι : Type} {f : ι → Except ε Bool} {test : ι → Bool} {xs : List ι}
    (h : ∀ x ∈ xs, f x = .ok (test x)) : xs.findM? f = .ok (xs.find? test) := by
  induction xs with
  | nil => rfl
  | cons x xs ih =>
    rw [List.forall_mem_cons] at h
    rw [List.findM?, h.1, List.find?_cons]
    cases test x with
    | true => rfl
    | false => exact ih h.2

end WorstCase
