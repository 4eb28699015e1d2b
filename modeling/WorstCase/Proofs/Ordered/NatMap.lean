import Mathlib.Data.List.Nodup
import Mathlib.Data.List.Induction
import WorstCase.Ordered.NatMap

/-!
# What maps give

What a map gives for a key after an entry is stored (`get?_insert`), and what the map of a list of
entries gives (`get?_ofList_map`). A map is an *index* of a list of keys (`Indexes`) when it gives
the place of each key and nothing else. Then no key stands twice, a new key takes the next place
(`Indexes.push`), and what is done at the place of a key is done to the entry with this key
(`Indexes.set_eq_map`). In a map in ascending order storing what is stored already changes nothing
(`Ascending.insert_eq_self`).
-/

namespace WorstCase

/-- What a list of entries gives for a key is one of its entries. -/
theorem mem_of_lookup {ν : Type} {entries : List (Nat × ν)} {k : Nat} {v : ν}
    (h : entries.lookup k = some v) : (k, v) ∈ entries := by
  obtain ⟨before, after, rfl, -⟩ := List.lookup_eq_some_iff.1 h
  exact List.mem_append_right _ List.mem_cons_self

namespace NatMap

theorem get?_insert {ν : Type} (m : NatMap ν) (k l : Nat) (v : ν) :
    (m.insert k v).get? l = if l = k then some v else m.get? l := by
  have hcons : ∀ (j : Nat) (w : ν) (rest : List (Nat × ν)),
      ((j, w) :: rest).lookup l = if l = j then some w else rest.lookup l := by
    intro j w rest
    rw [List.lookup_cons]
    by_cases hl : l = j
    · rw [if_pos hl, beq_iff_eq.2 hl]
    · rw [if_neg hl, beq_eq_false_iff_ne.2 hl]
  obtain ⟨entries⟩ := m
  simp only [insert, get?]
  induction entries with
  | nil => rw [insertEntry, hcons]
  | cons q rest ih =>
    obtain ⟨j, w⟩ := q
    rw [insertEntry, hcons j]
    split
    · rw [hcons, hcons]
    · split
      · next hkj =>
        subst hkj
        rw [hcons]
        split <;> rfl
      · next hkj =>
        rw [hcons, ih]
        by_cases hlj : l = j
        · rw [if_pos hlj, if_pos hlj, if_neg fun hlk => hkj (hlk.symm.trans hlj)]
        · rw [if_neg hlj, if_neg hlj]

theorem get?_ofList_map {ν : Type} (f : Nat → ν) (ks : List Nat) (k : Nat) :
    (ofList (ks.map fun k => (k, f k))).get? k = if k ∈ ks then some (f k) else none := by
  induction ks using List.reverseRecOn with
  | nil => rfl
  | append_singleton ks l ih =>
    have hlast : ofList ((ks ++ [l]).map fun k => (k, f k)) =
        (ofList (ks.map fun k => (k, f k))).insert l (f l) := by
      rw [List.map_append, ofList, List.foldl_append]
      rfl
    rw [hlast, get?_insert, ih]
    by_cases hkl : k = l
    · rw [if_pos hkl, if_pos (List.mem_append_right _ (List.mem_singleton.2 hkl)), hkl]
    · simp only [hkl, ↓reduceIte, List.mem_append, List.mem_singleton, or_false]

/-- The map with only the entries of some keys. -/
def restrict {ν : Type} (m : NatMap ν) (keys : List Nat) : NatMap ν :=
  ⟨m.entries.filter fun entry => keys.contains entry.1⟩

theorem get?_restrict {ν : Type} (m : NatMap ν) {keys : List Nat} {k : Nat} (hk : k ∈ keys) :
    (m.restrict keys).get? k = m.get? k := by
  obtain ⟨entries⟩ := m
  simp only [restrict, get?]
  induction entries with
  | nil => rfl
  | cons entry entries ih =>
    obtain ⟨l, v⟩ := entry
    rw [List.filter_cons]
    by_cases hl : k = l
    · subst hl
      rw [if_pos (List.contains_iff_mem.2 hk), List.lookup_cons_self, List.lookup_cons_self]
    · have hbeq : (k == l) = false := beq_eq_false_iff_ne.2 hl
      rw [List.lookup_cons, hbeq, ← ih]
      split
      · rw [List.lookup_cons, hbeq]
      · rfl

/-! ## Indexes -/

/-- The map gives the place of each key of the list, and nothing else. -/
def Indexes (index : NatMap Nat) (keys : List Nat) : Prop :=
  ∀ key place, index.get? key = some place ↔ keys[place]? = some key

theorem indexes_empty : (empty : NatMap Nat).Indexes [] := by
  intro key place
  constructor
  · intro h
    cases h
  · intro h
    cases h

namespace Indexes

variable {index : NatMap Nat} {keys : List Nat} {key : Nat} (h : index.Indexes keys)

include h

/-- Two places of a key would both be the one that the index gives. -/
theorem nodup : keys.Nodup := by
  rw [List.nodup_iff_getElem?_ne_getElem?]
  intro i j hij hj heq
  have hkey := List.getElem?_eq_getElem hj
  have hi := (h _ i).2 (heq.trans hkey)
  rw [(h _ j).2 hkey] at hi
  exact Nat.ne_of_lt hij (Option.some.inj hi).symm

theorem get?_eq_none_iff : index.get? key = none ↔ key ∉ keys := by
  rw [List.mem_iff_getElem?, not_exists, Option.eq_none_iff_forall_ne_some]
  exact forall_congr' fun place => not_congr (h key place)

theorem contains_iff : index.contains key ↔ key ∈ keys := by
  rw [← not_iff_not, ← h.get?_eq_none_iff, contains, Option.isSome_iff_ne_none, not_not]

theorem push (hkey : key ∉ keys) : (index.insert key keys.length).Indexes (keys ++ [key]) := by
  intro l place
  rw [get?_insert]
  split
  · next hl =>
    subst hl
    constructor
    · intro hplace
      rw [← Option.some.inj hplace, List.getElem?_concat_length]
    · intro hplace
      rcases Nat.lt_or_ge place keys.length with hlt | hge
      · rw [List.getElem?_append_left hlt] at hplace
        exact absurd (List.mem_of_getElem? hplace) hkey
      · obtain ⟨hle, -⟩ := List.getElem?_eq_some_iff.1 hplace
        rw [List.length_append, List.length_singleton] at hle
        rw [Nat.le_antisymm hge (Nat.lt_succ_iff.1 hle)]
  · next hl =>
    rw [h l place]
    rcases Nat.lt_or_ge place keys.length with hlt | hge
    · rw [List.getElem?_append_left hlt]
    · rw [List.getElem?_append_right hge, List.getElem?_eq_none hge]
      constructor
      · intro hplace
        cases hplace
      · intro hplace
        exact absurd (List.mem_singleton.1 (List.mem_of_getElem? hplace)) hl

end Indexes

section entries

variable {β : Type} {index : NatMap Nat} {key : β → Nat} {xs : List β}
  (h : index.Indexes (xs.map key))

include h

/-- At the place that the index gives stands the entry with the key. -/
theorem Indexes.exists_entry {k place : Nat} (hk : index.get? k = some place) :
    ∃ x, xs[place]? = some x ∧ key x = k := by
  have hplace := (h k place).1 hk
  rw [List.getElem?_map] at hplace
  exact Option.map_eq_some_iff.1 hplace

theorem Indexes.exists_place {x : β} (hx : x ∈ xs) :
    ∃ place, index.get? (key x) = some place ∧ xs[place]? = some x := by
  obtain ⟨place, hplace⟩ := List.mem_iff_getElem?.1 hx
  refine ⟨place, (h (key x) place).2 ?_, hplace⟩
  rw [List.getElem?_map, hplace, Option.map_some]

/-- Updating what stands at the place of a key updates the entry with this key. -/
theorem Indexes.set_eq_map {k place : Nat} (hk : index.get? k = some place) {x : β}
    (hx : xs[place]? = some x) (f : β → β) :
    xs.set place (f x) = xs.map fun y => if key y = k then f y else y := by
  obtain ⟨hlt, -⟩ := List.getElem?_eq_some_iff.1 hx
  refine List.ext_getElem? fun i => ?_
  rw [List.getElem?_set, List.getElem?_map]
  split
  · next hi =>
    subst hi
    obtain ⟨y, hy, hkey⟩ := h.exists_entry hk
    obtain rfl : x = y := Option.some.inj (hx.symm.trans hy)
    simp only [↓reduceIte, hx, Option.map_some, hkey]
  · next hi =>
    cases hy : xs[i]? with
    | none => rfl
    | some y =>
      -- another entry with the key would stand at the same place
      have hne : key y ≠ k := by
        intro hkey
        have hplace : index.get? k = some i := by
          rw [h k i, List.getElem?_map, hy, Option.map_some, hkey]
        exact hi (Option.some.inj (hk.symm.trans hplace))
      simp only [Option.map_some, hne, ↓reduceIte]

end entries

/-! ## Ascending maps -/

section ascending

variable {ν : Type} {m : NatMap ν} {k : Nat} {v : ν}

/-- The entries are in ascending order of their keys. -/
def Ascending (m : NatMap ν) : Prop :=
  m.entries.Pairwise (·.1 < ·.1)

theorem key_of_mem_insertEntry {entries : List (Nat × ν)} {entry : Nat × ν}
    (h : entry ∈ insertEntry k v entries) : entry.1 = k ∨ entry ∈ entries := by
  induction entries with
  | nil => exact .inl (congrArg Prod.fst (List.mem_singleton.1 h))
  | cons head rest ih =>
    obtain ⟨l, w⟩ := head
    rw [insertEntry] at h
    split at h
    · exact (List.mem_cons.1 h).imp (congrArg Prod.fst) id
    · split at h
      · exact (List.mem_cons.1 h).imp (congrArg Prod.fst) (List.mem_cons_of_mem _)
      · rcases List.mem_cons.1 h with rfl | h
        · exact .inr List.mem_cons_self
        · exact (ih h).imp id (List.mem_cons_of_mem _)

/-- Insertion keeps the keys in ascending order. -/
theorem Ascending.insert (h : m.Ascending) (k : Nat) (v : ν) : (m.insert k v).Ascending := by
  obtain ⟨entries⟩ := m
  simp only [Ascending, NatMap.insert] at h ⊢
  induction entries with
  | nil => exact List.pairwise_singleton _ _
  | cons head rest ih =>
    obtain ⟨l, w⟩ := head
    obtain ⟨hhead, hrest⟩ := List.pairwise_cons.1 h
    rw [insertEntry]
    split
    · next hlt =>
      refine List.pairwise_cons.2 ⟨fun entry hentry => ?_, h⟩
      rcases List.mem_cons.1 hentry with rfl | hentry
      · exact hlt
      · exact Nat.lt_trans hlt (hhead entry hentry)
    · split
      · next heq =>
        subst heq
        exact List.pairwise_cons.2 ⟨hhead, hrest⟩
      · next hge hne =>
        refine List.pairwise_cons.2 ⟨fun entry hentry => ?_, ih hrest⟩
        rcases key_of_mem_insertEntry hentry with hk | hentry
        · show l < entry.1
          omega
        · exact hhead entry hentry

/-- Storing what is stored already changes nothing. -/
theorem Ascending.insert_eq_self (h : m.Ascending) (hk : m.get? k = some v) : m.insert k v = m := by
  obtain ⟨entries⟩ := m
  simp only [Ascending, NatMap.insert, get?, mk.injEq] at h hk ⊢
  induction entries with
  | nil => cases hk
  | cons head rest ih =>
    obtain ⟨l, w⟩ := head
    obtain ⟨hhead, hrest⟩ := List.pairwise_cons.1 h
    rw [List.lookup_cons] at hk
    split at hk
    · next heq =>
      obtain rfl : k = l := beq_iff_eq.1 heq
      cases hk
      rw [insertEntry, if_neg (Nat.lt_irrefl k), if_pos rfl]
    · have hlt : l < k := hhead _ (mem_of_lookup hk)
      rw [insertEntry, if_neg (Nat.lt_asymm hlt), if_neg (Nat.ne_of_gt hlt), ih hrest hk]

end ascending

end NatMap

end WorstCase
