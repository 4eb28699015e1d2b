import WorstCase.Proofs.Linear.Pivoting
import WorstCase.Linear.Simplex

/-!
# How near the leaving row is to the tightest

With room for rounding, the search for the leaving row takes limits for equal that are at most
`tiny` apart, and it compares a row with the best one so far. A row that is better only because of
its basic variable may raise the best limit by `tiny`, and the next such row may raise it again. So
what is found is at most `tiny` above the tightest limit for each row that limits the variable but
one (`Tableau.leaving_near_least`), and not less: on a staircase every row takes its step
(`Tableau.leaving?_staircase`). So a problem with three rows (`Sample.climb`) has a relaxation that
ends at values that miss its second row by more than the slack.
-/

namespace WorstCase

namespace Tableau

/-! ## The scan -/

/-- How many of the rows limit `c`. -/
def limiting (tiny : ℚ) (c : ℕ) (rows : List (TableauRow ℚ)) : ℕ :=
  rows.countP fun row => tiny < row.equation.coefficient c

theorem limiting_concat (tiny : ℚ) (c : ℕ) (rows : List (TableauRow ℚ)) (row : TableauRow ℚ) :
    limiting tiny c (rows ++ [row]) =
      limiting tiny c rows + if tiny < row.equation.coefficient c then 1 else 0 := by
  rw [limiting, List.countP_append, List.countP_singleton]
  simp only [decide_eq_true_eq]
  rfl

/-- The limit is that of one of the rows, and it is above no other by more than `tiny` for each row
that limits `c` but one. -/
structure NearLeast (tiny : ℚ) (c : ℕ) (rows : List (TableauRow ℚ)) (l : Limit ℚ) : Prop where
  found : ∃ row, rows[l.row]? = some row ∧ ratio row c = l.ratio ∧ tiny < row.equation.coefficient c
  near : ∀ row ∈ rows, tiny < row.equation.coefficient c →
    l.ratio ≤ ratio row c + (limiting tiny c rows - 1) * tiny

section step

variable {tiny : ℚ} {c : ℕ} {rows : List (TableauRow ℚ)} {l : Limit ℚ} {row : TableauRow ℚ}

theorem NearLeast.one_le_limiting (h : NearLeast tiny c rows l) : 1 ≤ limiting tiny c rows := by
  obtain ⟨row, hrow, -, hlimits⟩ := h.found
  exact List.countP_pos_iff.2 ⟨row, List.mem_of_getElem? hrow, decide_eq_true hlimits⟩

/-- A row that does not limit `c` changes nothing. -/
theorem NearLeast.concat_of_le (h : NearLeast tiny c rows l)
    (hle : row.equation.coefficient c ≤ tiny) : NearLeast tiny c (rows ++ [row]) l := by
  have hcount : limiting tiny c (rows ++ [row]) = limiting tiny c rows := by
    rw [limiting_concat, if_neg (not_lt.2 hle), Nat.add_zero]
  obtain ⟨⟨first, hfirst, hfound⟩, hnear⟩ := h
  refine ⟨⟨first, ?_, hfound⟩, ?_⟩
  · rw [List.getElem?_append_left (List.getElem?_eq_some_iff.1 hfirst).1, hfirst]
  · rw [hcount]
    refine List.forall_mem_append.2 ⟨hnear, List.forall_mem_singleton.2 fun hlt => ?_⟩
    exact absurd hle (not_le.2 hlt)

/-- Each further row that limits `c` may raise the best limit by `tiny`, no more. -/
theorem NearLeast.tighten (h : NearLeast tiny c rows l) (htiny : 0 ≤ tiny)
    (hlt : tiny < row.equation.coefficient c) : NearLeast tiny c (rows ++ [row])
      (Limit.tighten tiny (some l) ⟨rows.length, row.basic, ratio row c⟩) := by
  have hcount : (limiting tiny c (rows ++ [row]) - 1 : ℚ) * tiny =
      (limiting tiny c rows - 1) * tiny + tiny := by
    rw [limiting_concat, if_pos hlt]
    push_cast
    ring
  have hroom : 0 ≤ (limiting tiny c rows - 1 : ℚ) * tiny :=
    mul_nonneg (sub_nonneg.2 (Nat.one_le_cast.2 h.one_le_limiting)) htiny
  simp only [Limit.tighten]
  split
  -- the new row may be worse than the best so far by `tiny`, and the best so far than it
  · next hbetter =>
    have hraise : ratio row c ≤ l.ratio + tiny := by
      rcases hbetter with hless | ⟨hle, -⟩
      · linarith
      · exact hle
    refine ⟨⟨row, by simp, rfl, hlt⟩, ?_⟩
    rw [hcount]
    refine List.forall_mem_append.2
      ⟨fun other ho hother => ?_, List.forall_mem_singleton.2 fun _ => ?_⟩
    · have := h.near other ho hother
      linarith
    · linarith
  · next hworse =>
    have hkeep : l.ratio ≤ ratio row c + tiny := by
      rw [not_or, not_lt] at hworse
      linarith [hworse.1]
    obtain ⟨⟨first, hfirst, hfound⟩, hnear⟩ := h
    refine ⟨⟨first, ?_, hfound⟩, ?_⟩
    · rw [List.getElem?_append_left (List.getElem?_eq_some_iff.1 hfirst).1, hfirst]
    rw [hcount]
    refine List.forall_mem_append.2
      ⟨fun other ho hother => ?_, List.forall_mem_singleton.2 fun _ => ?_⟩
    · have := hnear other ho hother
      linarith
    · linarith

/-- The first row that limits `c` is the best. -/
theorem nearLeast_concat (hall : ∀ other ∈ rows, other.equation.coefficient c ≤ tiny)
    (hlt : tiny < row.equation.coefficient c) :
    NearLeast tiny c (rows ++ [row]) ⟨rows.length, row.basic, ratio row c⟩ := by
  have hnone : limiting tiny c rows = 0 :=
    List.countP_eq_zero.2 fun other ho hother =>
      absurd (of_decide_eq_true hother) (not_lt.2 (hall other ho))
  refine ⟨⟨row, by simp, rfl, hlt⟩, List.forall_mem_append.2
    ⟨fun other ho hother => absurd (hall other ho) (not_le.2 hother),
      List.forall_mem_singleton.2 fun _ => ?_⟩⟩
  rw [limiting_concat, hnone, if_pos hlt]
  simp

end step

/-- Either no row limits `c`, or the limit that is found is near the least. -/
theorem scanned?_spec {tiny : ℚ} (htiny : 0 ≤ tiny) (c : ℕ) (rows : List (TableauRow ℚ)) :
    (scanned? tiny c rows = none ∧ ∀ row ∈ rows, row.equation.coefficient c ≤ tiny) ∨
      ∃ l, scanned? tiny c rows = some l ∧ NearLeast tiny c rows l := by
  induction rows using List.reverseRecOn with
  | nil => exact .inl ⟨rfl, fun row hrow => absurd hrow List.not_mem_nil⟩
  | append_singleton rows row ih =>
    rw [scanned?_concat]
    split
    · next hle =>
      rcases ih with ⟨hnone, hall⟩ | ⟨l, hl, hnear⟩
      · exact .inl ⟨hnone, List.forall_mem_append.2 ⟨hall, List.forall_mem_singleton.2 hle⟩⟩
      · exact .inr ⟨l, hl, hnear.concat_of_le hle⟩
    · next hlt =>
      refine .inr ⟨_, rfl, ?_⟩
      rcases ih with ⟨hnone, hall⟩ | ⟨l, hl, hnear⟩
      · rw [hnone]
        exact nearLeast_concat hall (not_le.1 hlt)
      · rw [hl]
        exact hnear.tighten htiny (not_le.1 hlt)

/-! ## A staircase -/

/-- Row `i` of a staircase with `n` steps: it limits the last variable to `1 + i * tiny`, and the
later the row, the smaller its basic variable. -/
def stair (tiny : ℚ) (n i : ℕ) : TableauRow ℚ :=
  ⟨⟨(List.range (n + 2)).map fun j => if j = n - i ∨ j = n + 1 then 1 else 0, 1 + i * tiny⟩, n - i⟩

/-- A tableau in which only the last variable can enter, and each row limits it by `tiny` less than
the row before. -/
def staircase (tiny : ℚ) (n : ℕ) : Tableau ℚ where
  rows := (List.range (n + 1)).map (stair tiny n)
  objective := ⟨(List.range (n + 2)).map fun j => if j = n + 1 then -1 else 0, 0⟩
  width := n + 2
  artificialStart := n + 2

theorem getD_map_range (f : ℕ → ℚ) {m j : ℕ} (h : j < m) :
    ((List.range m).map f).getD j 0 = f j := by
  rw [List.getD_eq_getElem _ _ (by simpa using h), List.getElem_map, List.getElem_range]

/-- A stair mentions its basic variable and the entering one. -/
theorem coefficient_stair (tiny : ℚ) {n i j : ℕ} (h : j < n + 2) :
    (stair tiny n i).equation.coefficient j = if j = n - i ∨ j = n + 1 then 1 else 0 :=
  getD_map_range _ h

theorem coefficient_stair_last (tiny : ℚ) (n i : ℕ) :
    (stair tiny n i).equation.coefficient (n + 1) = 1 := by
  rw [coefficient_stair tiny (Nat.lt_succ_self _), if_pos (.inr rfl)]

/-- Each stair is one tolerance above the one before. -/
theorem ratio_stair (tiny : ℚ) (n i : ℕ) : ratio (stair tiny n i) (n + 1) = 1 + i * tiny := by
  rw [ratio, coefficient_stair_last, div_one]
  rfl

/-- The basis of a staircase is feasible. -/
theorem feasible_staircase {tiny : ℚ} (htiny : 0 ≤ tiny) (n : ℕ) : (staircase tiny n).Feasible := by
  have hrows : ∀ {P : TableauRow ℚ → Prop}, (∀ i, i < n + 1 → P (stair tiny n i)) →
      ∀ row ∈ (staircase tiny n).rows, P row := fun h =>
    List.forall_mem_map.2 fun i hi => h i (List.mem_range.1 hi)
  refine ⟨⟨⟨hrows fun i _ => ?_, hrows fun i _ => ?_, ?_⟩, hrows fun i _ => ?_, ?_,
    hrows fun i _ => ?_⟩, hrows fun i _ => ?_⟩
  · simp [stair, staircase]
  · exact Nat.lt_of_le_of_lt (Nat.sub_le n i) (by simp [staircase])
  · simp [staircase]
  · have hlt : n - i < n + 2 := by omega
    exact (coefficient_stair tiny hlt).trans (if_pos (.inl rfl))
  · -- basic variables of different rows are different, and none is the last variable
    refine List.pairwise_map.2 (List.pairwise_lt_range.imp_of_mem fun {i j} hi hj hij => ?_)
    rw [List.mem_range] at hi hj
    exact ⟨(coefficient_stair tiny (by simp [stair]; omega)).trans
        (if_neg (by simp [stair]; omega)),
      (coefficient_stair tiny (by simp [stair]; omega)).trans (if_neg (by simp [stair]; omega))⟩
  · have hlt : n - i < n + 2 := by omega
    exact (getD_map_range _ hlt).trans (if_neg (by omega))
  · exact add_nonneg zero_le_one (mul_nonneg i.cast_nonneg htiny)

/-- The scan climbs a staircase to its top. -/
theorem scanned?_stairs {tiny : ℚ} (hone : tiny < 1) {n m : ℕ} (hm : m ≤ n) :
    scanned? tiny (n + 1) ((List.range (m + 1)).map (stair tiny n)) =
      some ⟨m, n - m, 1 + m * tiny⟩ := by
  have hlimits : ∀ i, ¬ (stair tiny n i).equation.coefficient (n + 1) ≤ tiny := fun i => by
    rw [coefficient_stair_last]
    exact not_le.2 hone
  induction m with
  | zero =>
    rw [List.range_succ, List.map_append, List.map_singleton, scanned?_concat, if_neg (hlimits 0),
      ratio_stair]
    rfl
  | succ m ih =>
    have hbetter : 1 + ((m + 1 : ℕ) : ℚ) * tiny ≤ 1 + m * tiny + tiny ∧ n - (m + 1) < n - m := by
      refine ⟨le_of_eq ?_, by omega⟩
      push_cast
      ring
    rw [List.range_succ, List.map_append, List.map_singleton, scanned?_concat, if_neg (hlimits _),
      ih (Nat.le_of_succ_le hm), ratio_stair, List.length_map, List.length_range]
    exact congrArg some (if_pos (.inr hbetter))

/-- The scan climbs the staircase to the top. -/
theorem leaving?_staircase {tiny : ℚ} (hone : tiny < 1) (n : ℕ) :
    (staircase tiny n).leaving? tiny (n + 1) = some n := by
  rw [leaving?_eq_scanned?, staircase, scanned?_stairs hone le_rfl]
  rfl

theorem limiting_staircase {tiny : ℚ} (hone : tiny < 1) (n : ℕ) :
    limiting tiny (n + 1) (staircase tiny n).rows = n + 1 := by
  rw [limiting, List.countP_eq_length.2, staircase, List.length_map, List.length_range]
  refine List.forall_mem_map.2 fun i _ => decide_eq_true ?_
  rw [coefficient_stair_last]
  exact hone

/-! ## The leaving row -/

/-- There is a leaving row exactly if some row limits the entering variable. Its limit is at most
`tiny` above the least for each row that limits the variable but one. With any number of such rows
there is a feasible basis at which it is as much above the least as that. -/
theorem leaving_near_least {tiny : ℚ} (htiny : 0 ≤ tiny) :
    (∀ (t : Tableau ℚ) (c : ℕ),
      (t.leaving? tiny c = none ↔ ∀ row ∈ t.rows, row.equation.coefficient c ≤ tiny) ∧
      ∀ r, t.leaving? tiny c = some r → ∃ row, t.rows[r]? = some row ∧
        tiny < row.equation.coefficient c ∧ ∀ other ∈ t.rows, tiny < other.equation.coefficient c →
          ratio row c ≤ ratio other c + (limiting tiny c t.rows - 1) * tiny) ∧
    (tiny < 1 → ∀ n, ∃ (t : Tableau ℚ) (c r : ℕ) (row least : TableauRow ℚ), t.Feasible ∧
      limiting tiny c t.rows = n + 1 ∧ t.leaving? tiny c = some r ∧ t.rows[r]? = some row ∧
      least ∈ t.rows ∧ tiny < least.equation.coefficient c ∧
      ratio row c = ratio least c + n * tiny) := by
  refine ⟨fun t c => ?_, fun hone n => ?_⟩
  · rcases scanned?_spec htiny c t.rows with ⟨hnone, hall⟩ | ⟨l, hl, hnear⟩
    · rw [leaving?_eq_scanned?, hnone]
      exact ⟨iff_of_true rfl hall, fun r hr => by cases hr⟩
    · rw [leaving?_eq_scanned?, hl]
      obtain ⟨row, hrow, hratio, hlimits⟩ := hnear.found
      refine ⟨iff_of_false (by simp) fun hall => ?_, fun r hr => ?_⟩
      · exact absurd (hall row (List.mem_of_getElem? hrow)) (not_le.2 hlimits)
      · obtain rfl := Option.some.inj hr
        exact ⟨row, hrow, hlimits, hratio ▸ hnear.near⟩
  · refine ⟨staircase tiny n, n + 1, n, stair tiny n n, stair tiny n 0, feasible_staircase htiny n,
      limiting_staircase hone n, leaving?_staircase hone n, by simp [staircase], ?_, ?_, ?_⟩
    · exact List.mem_map_of_mem (List.mem_range.2 (Nat.succ_pos n))
    · rw [coefficient_stair_last]
      exact hone
    · rw [ratio_stair, ratio_stair]
      simp

end Tableau

namespace Sample

/-- Three rows limit `x` to `1 + 9 / 10 ^ 10`, to 1 and, once `y` is basic, to `1 + 18 / 10 ^
10`. -/
def climb : Problem ℚ where
  name := "climb"
  direction := .maximise
  columns := [⟨"y", 0, none, false, 1⟩, ⟨"x", 0, none, false, 2⟩]
  rows := [⟨[(2, 1)], .atMost, 1 + 9 / 10 ^ 10, .other, none⟩,
    ⟨[(2, 900)], .atMost, 900, .other, none⟩,
    ⟨[(1, 1), (2, 1)], .atMost, 1 + 18 / 10 ^ 10, .other, none⟩]

/-- The tableau of the problem when `y` has entered. -/
def climbing : Tableau ℚ :=
  ((Tableau.ofProblem climb [0, 0] [none, none]).loadObjective [1, 2]).pivot (1 / 10 ^ 9) 2 0

/-- The room that doubles have. -/
def room : Precision ℚ :=
  ⟨1 / 10 ^ 9, 1 / 10 ^ 7, 1 / 10 ^ 6⟩

end Sample

open Sample in
/-- The last row leaves although its limit is more than `10 ^ -9` above that of the second row. So
the relaxation ends at values that miss the second row by more than the slack. -/
theorem Tableau.leaving_near_least_climb :
    (0 : ℚ) ≤ room.pivot ∧ climbing.leaving? room.pivot 1 = some 2 ∧
      (∃ row least, climbing.rows[2]? = some row ∧ climbing.rows[1]? = some least ∧
        room.pivot < least.equation.coefficient 1 ∧
        ratio row 1 ≤ ratio least 1 + 2 * room.pivot ∧ ratio least 1 + room.pivot < ratio row 1) ∧
      Simplex.solve ⟨room, 10⟩ climb = .ok ⟨2 + 36 / 10 ^ 10, [0, 1 + 18 / 10 ^ 10]⟩ ∧
      climb.isSatisfiedBy room.slack [0, 1 + 18 / 10 ^ 10] = false := by
  have htiny : (0 : ℚ) ≤ room.pivot := by decide +kernel
  have hleaving : climbing.leaving? room.pivot 1 = some 2 := by decide +kernel
  have hcount : limiting room.pivot 1 climbing.rows = 3 := by decide +kernel
  have hratios : climbing.rows.map (fun row => (row.equation.coefficient 1, ratio row 1)) =
      [(1, 1 + 9 / 10 ^ 10), (900, 1), (1, 1 + 18 / 10 ^ 10)] := by decide +kernel
  obtain ⟨first, least, row, hrows⟩ : ∃ first least row, climbing.rows = [first, least, row] :=
    List.length_eq_three.1 (by decide +kernel)
  rw [hrows] at hratios
  simp only [List.map_cons, List.map_nil, List.cons.injEq, Prod.mk.injEq, and_true] at hratios
  obtain ⟨-, ⟨hleast, hone⟩, -, hrow⟩ := hratios
  have hlimits : room.pivot < least.equation.coefficient 1 := by
    rw [hleast]
    decide +kernel
  obtain ⟨found, hfound, -, hnear⟩ := ((leaving_near_least htiny).1 climbing 1).2 2 hleaving
  have hnear := hnear least (by simp [hrows]) hlimits
  rw [hrows] at hfound
  obtain rfl : row = found := Option.some.inj hfound
  rw [hcount] at hnear
  refine ⟨htiny, hleaving, ⟨row, least, by rw [hrows]; rfl, by rw [hrows]; rfl, hlimits, ?_, ?_⟩,
    by decide +kernel, by decide +kernel⟩
  · exact hnear.trans_eq (by norm_num)
  · rw [hone, hrow]
    decide +kernel

end WorstCase
