import Mathlib.Data.List.Basic

/-!
# Patterns

A pattern is matched at the start of a text, and there may be several ways to do so. The candidates
(`Pattern.candidates`) stand in their order of preference: a part that is optional is rather there
than not, and a part that may be repeated is rather repeated once more than not. What a search finds
is the first of them (`Pattern.first`); a later one counts only where what comes next in a larger
pattern does not match after the first. A match is at the start of the text, and what its groups
have captured is in it (`Pattern.of_mem`).
-/

namespace WorstCase.Listing

/-! ## Candidates -/

/-- A way to match a pattern at the start of a text: what is matched, what the numbered groups have
captured, and the text that is left. -/
structure Found where
  text : List Char
  groups : List (Nat × List Char)
  rest : List Char

namespace Found

/-- Nothing is matched. -/
def nothing (cs : List Char) : Found :=
  ⟨[], [], cs⟩

/-- The longest run of characters that pass the test. -/
def run (test : Char → Bool) (cs : List Char) : Found :=
  ⟨cs.takeWhile test, [], cs.dropWhile test⟩

/-- One match after the other. -/
def append (f g : Found) : Found :=
  ⟨f.text ++ g.text, f.groups ++ g.groups, g.rest⟩

/-- What a group has captured. -/
def group? (f : Found) (number : Nat) : Option (List Char) :=
  f.groups.lookup number

theorem append_assoc (f g h : Found) : (f.append g).append h = f.append (g.append h) := by
  simp only [append, List.append_assoc]

theorem run_cons_of_pos {test : Char → Bool} {c : Char} (h : test c) (cs : List Char) :
    run test (c :: cs) = append ⟨[c], [], cs⟩ (run test cs) := by
  simp [run, append, h]

theorem run_of_head {test : Char → Bool} {cs : List Char} (h : ∀ c ∈ cs.head?, ¬ test c) :
    run test cs = nothing cs := by
  cases cs with
  | nil => rfl
  | cons c cs => simp [run, nothing, h c rfl]

end Found

/-- A pattern. Parts that are optional or repeated are taken as often as possible. -/
inductive Pattern
  | char (test : Char → Bool)
  | seq (first second : Pattern)
  | optional (body : Pattern)
  | many (body : Pattern)
  | group (number : Nat) (body : Pattern)

/-- Up to so many rounds, each of which has to take something. -/
def repeated (step : List Char → List Found) : Nat → List Char → List Found
  | 0, cs => [.nothing cs]
  | rounds + 1, cs =>
    ((step cs).filter fun f => !f.text.isEmpty).flatMap
      (fun f => (repeated step rounds f.rest).map f.append) ++ [.nothing cs]

namespace Pattern

/-- The ways to match a pattern, the preferred ones first. -/
def candidates : Pattern → List Char → List Found
  | .char _, [] => []
  | .char test, c :: cs => if test c then [⟨[c], [], cs⟩] else []
  | .seq p q, cs => (p.candidates cs).flatMap fun f => (q.candidates f.rest).map f.append
  | .optional p, cs => p.candidates cs ++ [.nothing cs]
  | .many p, cs => repeated p.candidates cs.length cs
  | .group number p, cs =>
    (p.candidates cs).map fun f => { f with groups := (number, f.text) :: f.groups }

/-- What a search at the start of the text finds. -/
def first (p : Pattern) (cs : List Char) : Option Found :=
  (p.candidates cs).head?

end Pattern

/-- The match is at the start of the text, and what the groups have captured is in it. -/
structure Found.Of (cs : List Char) (f : Found) : Prop where
  append_eq : f.text ++ f.rest = cs
  infix_of_mem : ∀ g ∈ f.groups, g.2 <:+: f.text

theorem Found.Of.nothing (cs : List Char) : Found.Of cs (.nothing cs) :=
  ⟨rfl, fun _ h => absurd h List.not_mem_nil⟩

theorem Found.Of.append {cs : List Char} {f g : Found} (hf : Found.Of cs f)
    (hg : Found.Of f.rest g) : Found.Of cs (f.append g) := by
  refine ⟨?_, fun x hx => ?_⟩
  · rw [Found.append, List.append_assoc, hg.append_eq, hf.append_eq]
  · rcases List.mem_append.1 hx with hx | hx
    · exact (hf.infix_of_mem x hx).trans (List.prefix_append _ _).isInfix
    · exact (hg.infix_of_mem x hx).trans (List.suffix_append _ _).isInfix

/-- What a group has caught is part of what was found. -/
theorem Found.Of.infix_of_group? {cs text : List Char} {f : Found} {number : Nat}
    (h : Found.Of cs f) (hg : f.group? number = some text) : text <:+: f.text := by
  obtain ⟨before, after, hgroups, -⟩ := List.lookup_eq_some_iff.1 hg
  exact h.infix_of_mem (number, text) (hgroups ▸ List.mem_append_right before List.mem_cons_self)

theorem of_mem_repeated {step : List Char → List Found}
    (hstep : ∀ cs, ∀ f ∈ step cs, Found.Of cs f) {rounds : Nat} {cs : List Char} {f : Found}
    (h : f ∈ repeated step rounds cs) : Found.Of cs f := by
  induction rounds generalizing cs f with
  | zero => exact List.mem_singleton.1 h ▸ .nothing cs
  | succ rounds ih =>
    rcases List.mem_append.1 h with h | h
    · obtain ⟨first, hfirst, h⟩ := List.mem_flatMap.1 h
      obtain ⟨later, hlater, rfl⟩ := List.mem_map.1 h
      exact (hstep cs first (List.mem_of_mem_filter hfirst)).append (ih hlater)
    · exact List.mem_singleton.1 h ▸ .nothing cs

/-- Each candidate is a start of the text, and the rest is what is left of it. -/
theorem Pattern.of_mem {p : Pattern} {cs : List Char} {f : Found} (h : f ∈ p.candidates cs) :
    Found.Of cs f := by
  induction p generalizing cs f with
  | char test =>
    cases cs with
    | nil => cases h
    | cons c cs =>
      rw [candidates] at h
      split at h
      · rw [List.mem_singleton.1 h]
        exact ⟨rfl, fun _ h => absurd h List.not_mem_nil⟩
      · cases h
  | seq p q hp hq =>
    obtain ⟨first, hfirst, h⟩ := List.mem_flatMap.1 h
    obtain ⟨second, hsecond, rfl⟩ := List.mem_map.1 h
    exact (hp hfirst).append (hq hsecond)
  | optional p hp =>
    rcases List.mem_append.1 h with h | h
    · exact hp h
    · exact List.mem_singleton.1 h ▸ .nothing cs
  | many p hp => exact of_mem_repeated (fun _ _ => hp) h
  | group number p hp =>
    obtain ⟨body, hbody, rfl⟩ := List.mem_map.1 h
    refine ⟨(hp hbody).append_eq, List.forall_mem_cons.2 ⟨List.infix_refl _, ?_⟩⟩
    exact (hp hbody).infix_of_mem

/-! ## Repetition -/

/-- A round that takes something leaves a shorter text. -/
theorem length_rest_lt {cs : List Char} {f : Found} (h : Found.Of cs f) (hne : f.text ≠ []) :
    f.rest.length < cs.length := by
  have hlen := congrArg List.length h.append_eq
  rw [List.length_append] at hlen
  have := List.length_pos_of_ne_nil hne
  omega

theorem filter_candidates_nil (p : Pattern) :
    ((p.candidates []).filter fun f => !f.text.isEmpty) = [] := by
  refine List.filter_eq_nil_iff.2 fun f hf => ?_
  have hnil := (List.append_eq_nil_iff.1 (Pattern.of_mem hf).append_eq).1
  simp [hnil]

/-- The length of the text is as good a bound on the rounds as any. -/
theorem repeated_eq (p : Pattern) {n m : Nat} {cs : List Char} (hn : cs.length ≤ n)
    (hm : cs.length ≤ m) : repeated p.candidates n cs = repeated p.candidates m cs := by
  have hzero : ∀ k, repeated p.candidates k [] = [.nothing []] := fun k => by
    cases k with
    | zero => rfl
    | succ k => rw [repeated, filter_candidates_nil]; rfl
  induction n generalizing m cs with
  | zero =>
    obtain rfl := List.length_eq_zero_iff.1 (Nat.le_zero.1 hn)
    rw [hzero, hzero]
  | succ n ih =>
    cases m with
    | zero =>
      obtain rfl := List.length_eq_zero_iff.1 (Nat.le_zero.1 hm)
      rw [hzero, hzero]
    | succ m =>
      rw [repeated, repeated]
      congr 1
      refine List.flatMap_congr fun f hf => ?_
      obtain ⟨hmem, hne⟩ := List.mem_filter.1 hf
      have hlt := length_rest_lt (Pattern.of_mem hmem) (by simpa using hne)
      rw [ih (m := m) (by omega) (by omega)]

namespace Pattern

/-- A repetition prefers one more round to none, and takes no round that finds nothing. -/
theorem candidates_many (p : Pattern) (cs : List Char) : (many p).candidates cs =
    ((p.candidates cs).filter fun f => !f.text.isEmpty).flatMap
      (fun f => ((many p).candidates f.rest).map f.append) ++ [.nothing cs] := by
  rw [candidates, repeated_eq p (Nat.le_refl _) (Nat.le_succ _), repeated]
  congr 1
  refine List.flatMap_congr fun f hf => ?_
  obtain ⟨hmem, hne⟩ := List.mem_filter.1 hf
  have hlt := length_rest_lt (of_mem hmem) (by simpa using hne)
  rw [candidates, repeated_eq p (by omega) (Nat.le_refl _)]

/-! ## What is found -/

/-- The first candidate. -/
def Finds (p : Pattern) (cs : List Char) (f : Found) : Prop :=
  ∃ others, p.candidates cs = f :: others

/-- There is no candidate. -/
def Fails (p : Pattern) (cs : List Char) : Prop :=
  p.candidates cs = []

variable {p q : Pattern} {cs : List Char} {f g : Found} {test : Char → Bool}

theorem Finds.first_eq (h : p.Finds cs f) : p.first cs = some f := by
  obtain ⟨others, h⟩ := h
  rw [first, h]
  rfl

theorem Finds.of (h : p.Finds cs f) : Found.Of cs f := by
  obtain ⟨others, h⟩ := h
  exact of_mem (h ▸ List.mem_cons_self)

/-- The first candidate is the one that is found. -/
theorem Finds.unique (h : p.Finds cs f) (h' : p.Finds cs g) : f = g :=
  Option.some.inj (h.first_eq.symm.trans h'.first_eq)

theorem finds_char {c : Char} (h : test c) (cs : List Char) :
    (char test).Finds (c :: cs) ⟨[c], [], cs⟩ :=
  ⟨[], by rw [candidates, if_pos h]⟩

theorem fails_char (h : ∀ c ∈ cs.head?, ¬ test c) : (char test).Fails cs := by
  cases cs with
  | nil => rfl
  | cons c cs => exact if_neg (h c rfl)

/-- What is found by two patterns in a row, if the first one need not be taken back. -/
theorem Finds.seq (hp : p.Finds cs f) (hq : q.Finds f.rest g) :
    (p.seq q).Finds cs (f.append g) := by
  obtain ⟨fs, hp⟩ := hp
  obtain ⟨gs, hq⟩ := hq
  refine ⟨gs.map f.append ++ fs.flatMap fun f => (q.candidates f.rest).map f.append, ?_⟩
  rw [candidates, hp, List.flatMap_cons, hq, List.map_cons, List.cons_append]

/-- A sequence fails if its second part does so after every candidate for the first. -/
theorem fails_seq (h : ∀ f ∈ p.candidates cs, q.Fails f.rest) : (p.seq q).Fails cs := by
  refine List.flatMap_eq_nil_iff.2 fun f hf => ?_
  rw [h f hf, List.map_nil]

theorem Fails.seq (hp : p.Fails cs) : (p.seq q).Fails cs :=
  fails_seq fun f hf => by rw [hp] at hf; cases hf

theorem forall_mem_optional {P : Found → Prop} (h : ∀ f ∈ p.candidates cs, P f)
    (hnothing : P (.nothing cs)) : ∀ f ∈ (Pattern.optional p).candidates cs, P f :=
  List.forall_mem_append.2 ⟨h, List.forall_mem_singleton.2 hnothing⟩

theorem forall_mem_char {P : Found → Prop}
    (h : ∀ c rest, cs = c :: rest → test c → P ⟨[c], [], rest⟩) :
    ∀ f ∈ (char test).candidates cs, P f := by
  intro f hf
  cases cs with
  | nil => cases hf
  | cons c cs =>
    rw [candidates] at hf
    split at hf
    · next hc => exact List.mem_singleton.1 hf ▸ h c cs rfl hc
    · cases hf

theorem Finds.optional (h : p.Finds cs f) : (optional p).Finds cs f := by
  obtain ⟨fs, h⟩ := h
  exact ⟨fs ++ [.nothing cs], by rw [candidates, h, List.cons_append]⟩

theorem Fails.optional (h : p.Fails cs) : (optional p).Finds cs (.nothing cs) :=
  ⟨[], by rw [candidates, h, List.nil_append]⟩

theorem Finds.many (hp : p.Finds cs f) (hne : f.text ≠ []) (hg : (many p).Finds f.rest g) :
    (many p).Finds cs (f.append g) := by
  obtain ⟨fs, hp⟩ := hp
  obtain ⟨gs, hg⟩ := hg
  have hkeep : (!f.text.isEmpty) = true := by simpa using hne
  rw [Finds, candidates_many, hp, List.filter_cons, if_pos hkeep, List.flatMap_cons, hg]
  exact ⟨_, rfl⟩

theorem Fails.many (h : p.Fails cs) : (Pattern.many p).Finds cs (.nothing cs) := by
  rw [Finds, candidates_many, h]
  exact ⟨_, rfl⟩

/-- A repetition always finds something, if only nothing. -/
theorem exists_finds_many (p : Pattern) (cs : List Char) : ∃ f, (many p).Finds cs f := by
  have hne : (many p).candidates cs ≠ [] := by
    rw [candidates_many]
    exact List.append_ne_nil_of_right_ne_nil _ (List.cons_ne_nil _ _)
  obtain ⟨f, fs, h⟩ := List.exists_cons_of_ne_nil hne
  exact ⟨f, fs, h⟩

/-- A group in an optional pattern catches what is found. -/
theorem Finds.captured (h : p.Finds cs f) (hg : f.groups = []) (number : Nat) :
    (Pattern.optional (group number p)).Finds cs ⟨f.text, [(number, f.text)], f.rest⟩ := by
  obtain ⟨fs, h⟩ := h
  refine Finds.optional ⟨fs.map fun f => { f with groups := (number, f.text) :: f.groups }, ?_⟩
  rw [candidates, h, List.map_cons, hg]

theorem Fails.captured (h : p.Fails cs) (number : Nat) :
    (Pattern.optional (group number p)).Finds cs (.nothing cs) := by
  refine Fails.optional ?_
  rw [Fails, candidates, h, List.map_nil]

/-- At least one character that passes the test. -/
def plus (test : Char → Bool) : Pattern :=
  (char test).seq (many (char test))

/-- A repetition of a character test finds the longest run. -/
theorem finds_run (test : Char → Bool) (cs : List Char) :
    (many (char test)).Finds cs (.run test cs) := by
  induction cs with
  | nil => exact Fails.many rfl
  | cons c cs ih =>
    by_cases h : test c
    · rw [Found.run_cons_of_pos h]
      exact (finds_char h cs).many (List.cons_ne_nil _ _) ih
    · have hhead : ∀ d ∈ (c :: cs).head?, ¬ test d := fun d hd => Option.some.inj hd ▸ h
      rw [Found.run_of_head hhead]
      exact Fails.many (fails_char hhead)

theorem finds_plus (h : cs.takeWhile test ≠ []) : (plus test).Finds cs (.run test cs) := by
  cases cs with
  | nil => exact absurd rfl h
  | cons c cs =>
    by_cases hc : test c
    · rw [Found.run_cons_of_pos hc]
      exact (finds_char hc cs).seq (finds_run test cs)
    · exact absurd (List.takeWhile_cons_of_neg hc) h

theorem fails_plus (h : cs.takeWhile test = []) : (plus test).Fails cs := by
  refine Fails.seq (fails_char fun c hc htest => ?_)
  cases cs with
  | nil => cases hc
  | cons d cs =>
    obtain rfl := Option.some.inj hc
    rw [List.takeWhile_cons_of_pos htest] at h
    cases h

end Pattern

end WorstCase.Listing
