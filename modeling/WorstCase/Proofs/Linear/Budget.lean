import WorstCase.Proofs.Linear.BranchAndBound

/-!
# Budgets do not change answers

The simplex method may pivot so many times in each phase, and branch and bound may look at so many
boxes. A run that uses its budget up ends with a status of its own. Every other answer is lasting
(`Lasting`): it stays the same with a larger budget, whatever the operations of the scalars return
(`BranchAndBound.answers_lasting`).

Both loops count their budget down, and the budget of a loop is passed on unchanged to all the loops
inside it. So the argument goes from the inside out: pivoting, the two phases, the relaxation of a
box, and the search, whose step is told once for both budgets (`BranchAndBound.explore_cons`).
-/

namespace WorstCase

/-- A larger budget changes no other answer than `exhausted`. -/
def Lasting {β : Type} (exhausted : Status) (run : Nat → Except Status β) : Prop :=
  ∀ ⦃k l : Nat⦄, k ≤ l → run k ≠ .error exhausted → run l = run k

namespace Lasting

variable {β γ : Type} {exhausted : Status} {run : Nat → Except Status β}

theorem const (answer : Except Status β) : Lasting exhausted fun _ => answer :=
  fun _ _ _ _ => rfl

/-- What is found with some budget is found with every larger one. -/
theorem eq_ok (h : Lasting exhausted run) {k l : Nat} {b : β} (hk : run k = .ok b) (hkl : k ≤ l) :
    run l = .ok b := by
  refine (h hkl fun hfails => ?_).trans hk
  cases hk.symm.trans hfails

/-- What is told from a lasting answer, and fails where it is exhausted, is lasting. -/
theorem of_determined (h : Lasting exhausted run) {run' : Nat → Except Status γ}
    (hfails : ∀ k, run k = .error exhausted → run' k = .error exhausted)
    (hsame : ∀ k l, run l = run k → run' l = run' k) : Lasting exhausted run' := by
  intro k l hkl hne
  exact hsame k l (h hkl fun hk => hne (hfails k hk))

/-- One run after the other, on the same budget. -/
theorem bind (h : Lasting exhausted run) {next : Nat → β → Except Status γ}
    (hnext : ∀ b, Lasting exhausted fun k => next k b) :
    Lasting exhausted fun k => run k >>= next k := by
  intro k l hkl hne
  have hfirst : run l = run k := by
    refine h hkl fun hk => hne ?_
    simp only [hk]
    rfl
  simp only [hfirst] at hne ⊢
  cases hk : run k with
  | error status => rfl
  | ok b =>
    rw [hk] at hne
    exact hnext b hkl hne

end Lasting

variable {α : Type} [Scalar α]

/-! ## Pivots -/

/-- More pivots change nothing about an answer that has been reached. -/
theorem Tableau.lasting_iterate (tiny : α) (allowed : Nat) (t : Tableau α) :
    Lasting .numericalFailure fun k => iterate tiny allowed k t := by
  intro k
  induction k generalizing t with
  | zero => exact fun l _ hne => absurd rfl hne
  | succ k ih =>
    intro l hkl hne
    obtain ⟨l, rfl⟩ := Nat.exists_eq_add_one_of_ne_zero (Nat.ne_zero_of_lt hkl)
    simp only [iterate] at hne ⊢
    cases hcolumn : t.entering? tiny allowed with
    | none => rfl
    | some column =>
      simp only [hcolumn] at hne ⊢
      cases hrow : t.leaving? tiny column with
      | none => rfl
      | some r =>
        simp only [hrow] at hne ⊢
        exact ih (t.pivot tiny r column) (Nat.le_of_succ_le_succ hkl) hne

namespace Simplex

variable (precision : Precision α)

theorem lasting_phaseOne (t : Tableau α) :
    Lasting .numericalFailure fun k => phaseOne ⟨precision, k⟩ t := by
  by_cases hartificial : t.artificialStart < t.width
  · refine (t.loadPhaseOne.lasting_iterate precision.pivot t.width).of_determined ?_ ?_
    · intro k hk
      simp only [phaseOne, hartificial, ↓reduceIte, hk]
    · intro k l hkl
      simp only [phaseOne, hartificial, ↓reduceIte, hkl]
  · simp only [phaseOne, hartificial, ↓reduceIte]
    exact .const _

theorem lasting_phaseTwo (p : Problem α) (t : Tableau α) :
    Lasting .numericalFailure fun k => phaseTwo ⟨precision, k⟩ p t := by
  simp only [phaseTwo]
  exact Tableau.lasting_iterate ..

theorem solveIn_eq_bind (s : Simplex α) (p : Problem α) (box : Box α) :
    s.solveIn p box = if s.isCrossed box then .error .infeasible else do
      let t ← s.phaseOne (.ofProblem p box.lower box.upper)
      let t ← s.phaseTwo p t
      let values := t.valuesFrom box.lower p.columns.length
      return ⟨p.objectiveAt values, values⟩ := by
  unfold solveIn
  split
  · rfl
  · cases s.phaseOne (.ofProblem p box.lower box.upper) with
    | error status => rfl
    | ok t => cases h : s.phaseTwo p t <;> simp only [h, bind, Except.bind, pure, Except.pure]

/-- The simplex method answers the same with a larger budget, unless it ran out of it. -/
theorem lasting_solveIn (p : Problem α) (box : Box α) :
    Lasting .numericalFailure fun k => solveIn ⟨precision, k⟩ p box := by
  simp only [solveIn_eq_bind]
  -- whether the box is crossed does not depend on the budget
  by_cases hcrossed : isCrossed ⟨precision, 0⟩ box
  · have hall : ∀ k, isCrossed ⟨precision, k⟩ box = true := fun _ => hcrossed
    simp only [hall, ↓reduceIte]
    exact .const _
  · have hall : ∀ k, isCrossed ⟨precision, k⟩ box = false := fun _ => Bool.eq_false_iff.2 hcrossed
    simp only [hall, Bool.false_eq_true, ↓reduceIte]
    exact (lasting_phaseOne precision _).bind fun t =>
      (lasting_phaseTwo precision p t).bind fun _ => .const _

end Simplex

/-! ## Boxes -/

namespace BranchAndBound

variable (slack : α) (p : Problem α)

/-- What the relaxation of the first box leads to: the stack and the best solution to go on with, or
the end of the search. -/
def advance (box : Box α) (stack : List (Box α)) (best : Option (Solution α)) :
    Except Status (Solution α) → Except Status (List (Box α) × Option (Solution α))
  | .error .infeasible => .ok (stack, best)
  | .error status => .error status
  | .ok relaxed =>
    if isHopeless slack p best relaxed then .ok (stack, best)
    else
      match fractional? slack p relaxed.values with
      | some (i, value) =>
        .ok (box.above i (Scalar.ceil value) :: box.below i (Scalar.floor value) :: stack, best)
      | none => .ok (stack, some (settle p relaxed.values))

variable {slack p} {relax : Box α → Except Status (Solution α)} {stack : List (Box α)}
  {best : Option (Solution α)}

/-- A node is one relaxation and what follows from it. -/
theorem explore_cons (nodes : Nat) (box : Box α) :
    explore slack relax p (nodes + 1) (box :: stack) best =
      advance slack p box stack best (relax box) >>= fun next =>
        explore slack relax p nodes next.1 next.2 := by
  rw [explore]
  cases relax box with
  | error status => cases status <;> rfl
  | ok relaxed =>
    simp only [advance]
    split
    · rfl
    · cases fractional? slack p relaxed.values <;> rfl

/-- With no boxes left, neither the budget nor the relaxation matters. -/
theorem explore_nil (nodes nodes' : Nat) (relax' : Box α → Except Status (Solution α)) :
    explore slack relax' p nodes' [] best = explore slack relax p nodes [] best := by
  cases best <;> simp only [explore]

/-- Branch and bound answers the same with more nodes, unless it ran out of them. -/
theorem lasting_explore_nodes :
    Lasting .nodeLimit fun nodes => explore slack relax p nodes stack best := by
  intro k
  induction k generalizing stack best with
  | zero =>
    intro l _ hne
    cases stack with
    | nil => exact explore_nil ..
    | cons box stack => exact absurd (by simp only [explore]) hne
  | succ k ih =>
    intro l hkl hne
    cases stack with
    | nil => exact explore_nil ..
    | cons box stack =>
      obtain ⟨l, rfl⟩ := Nat.exists_eq_add_one_of_ne_zero (Nat.ne_zero_of_lt hkl)
      simp only [explore_cons] at hne ⊢
      cases hnext : advance slack p box stack best (relax box) with
      | error status => rfl
      | ok next =>
        rw [hnext] at hne
        exact ih (Nat.le_of_succ_le_succ hkl) hne

/-- A search in which every relaxation has the same budget. -/
theorem lasting_explore_relax {relax : Nat → Box α → Except Status (Solution α)}
    (hrelax : ∀ box, Lasting .numericalFailure fun k => relax k box) (nodes : Nat) :
    Lasting .numericalFailure fun k => explore slack (relax k) p nodes stack best := by
  induction nodes generalizing stack best with
  | zero =>
    cases stack with
    | nil => exact fun _ _ _ _ => explore_nil ..
    | cons box stack =>
      simp only [explore]
      exact .const _
  | succ nodes ih =>
    cases stack with
    | nil => exact fun _ _ _ _ => explore_nil ..
    | cons box stack =>
      simp only [explore_cons]
      refine .bind ?_ fun next => ih
      refine (hrelax box).of_determined (fun k hk => ?_) fun k l hkl => ?_
      · simp only [hk, advance]
      · simp only [hkl]

/-- Without a time limit the search starts with the box of the problem. -/
theorem solve_eq_explore (simplex : Simplex α) (nodes : Nat) : solve simplex ⟨nodes, none⟩ p =
    explore simplex.precision.slack (simplex.solveIn p) p nodes [p.box] none :=
  rfl

/-- What is answered is answered with every larger budget: by branch and bound with more boxes if it
has not reached the limit on them, and by branch and bound and by the simplex method with more
pivots if pivoting has not failed. -/
theorem answers_lasting (precision : Precision α) (p : Problem α) :
    (∀ k, Lasting .nodeLimit fun nodes => solve ⟨precision, k⟩ ⟨nodes, none⟩ p) ∧
      (∀ nodes, Lasting .numericalFailure fun k => solve ⟨precision, k⟩ ⟨nodes, none⟩ p) ∧
      ∀ box, Lasting .numericalFailure fun k => Simplex.solveIn ⟨precision, k⟩ p box := by
  have hrelax := Simplex.lasting_solveIn precision p
  simp only [solve_eq_explore]
  exact ⟨fun k => lasting_explore_nodes, lasting_explore_relax hrelax, hrelax⟩

open Sample in
/-- The mixed problem takes five boxes and, in one of its relaxations, four rounds of pivoting. With
these or more it has one answer, and with one less of either it has none. -/
theorem answers_lasting_mixed :
    solve ⟨.exact, 4⟩ ⟨4, none⟩ mixed = .error .nodeLimit ∧
      (∀ nodes, 5 ≤ nodes → solve ⟨.exact, 4⟩ ⟨nodes, none⟩ mixed = .ok ⟨41 / 2, [4, 0, 1 / 2]⟩) ∧
      solve ⟨.exact, 3⟩ ⟨5, none⟩ mixed = .error .numericalFailure ∧
      (∀ k, 4 ≤ k → solve ⟨.exact, k⟩ ⟨5, none⟩ mixed = .ok ⟨41 / 2, [4, 0, 1 / 2]⟩) ∧
      ∀ k, 4 ≤ k → Simplex.solveIn ⟨.exact, k⟩ mixed mixed.box = .ok ⟨22, [3, 3 / 2, 1]⟩ := by
  obtain ⟨hnodes, hpivots, hbox⟩ := answers_lasting .exact mixed
  have hsolve : solve ⟨.exact, 4⟩ ⟨5, none⟩ mixed = .ok ⟨41 / 2, [4, 0, 1 / 2]⟩ := by
    decide +kernel
  have hrelaxed : Simplex.solveIn ⟨.exact, 4⟩ mixed mixed.box = .ok ⟨22, [3, 3 / 2, 1]⟩ := by
    decide +kernel
  exact ⟨by decide +kernel, fun _ => (hnodes 4).eq_ok hsolve, by decide +kernel,
    fun _ => (hpivots 5).eq_ok hsolve, fun _ => (hbox mixed.box).eq_ok hrelaxed⟩

end BranchAndBound

end WorstCase
