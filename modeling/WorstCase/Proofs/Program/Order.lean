import Mathlib.Data.List.Induction
import Mathlib.Data.List.Nodup
import WorstCase.Program.Order
import WorstCase.Proofs.Fold

/-!
# Bottom-up orders

An order is *bottom-up* (`Program.BottomUp`) when each subprogram in it comes after all its callees.
The order that is found for a program is bottom-up and has all its subprograms
(`Program.Built.bottomUp_of_eq_ok`). One is found whenever numbers can be given to the subprograms
such that those of callees are smaller than those of their callers
(`Program.Ranked.exists_bottomUp`), so a program in which the same subprograms were added in another
order has one as well (`Program.Built.exists_bottomUp_of_perm`).
-/

namespace WorstCase

/-- The callees are the subprograms of the calls. -/
theorem Subprogram.mem_callees_iff {s : Subprogram} {c : Nat} :
    c ∈ s.callees ↔ ∃ e ∈ s.graph.edges, e.kind = .inlined c := by
  have hfold : ∀ (f : List Nat → Edge → List Nat),
      (∀ cs e, c ∈ f cs e ↔ c ∈ cs ∨ e.kind = .inlined c) → ∀ (es : List Edge) (cs : List Nat),
        c ∈ es.foldl f cs ↔ c ∈ cs ∨ ∃ e ∈ es, e.kind = .inlined c := by
    intro f hf es
    induction es with
    | nil => simp
    | cons e es ih =>
      intro cs
      rw [List.foldl_cons, ih, List.exists_mem_cons_iff, ← or_assoc]
      exact or_congr_left (hf cs e)
  refine (hfold _ (fun cs e => ?_) s.graph.edges []).trans (or_iff_right List.not_mem_nil)
  cases hk : e.kind <;> grind

namespace Program

/-! ## Programs made by adding subprograms -/

/-- The program comes from the empty one by adding subprograms. -/
inductive Built : Program → Prop
  | empty : Built empty
  | add {p p' : Program} (hp : Built p) (s : Subprogram) (h : p.add s = .ok p') : Built p'

theorem Built.ids_nodup {p : Program} (h : p.Built) : (p.subprograms.map (·.id)).Nodup := by
  induction h with
  | empty => exact List.nodup_nil
  | add _ s h ih =>
    unfold Program.add at h
    split at h
    · cases h
    · next hnone =>
      cases h
      simp only [find?, Option.not_isSome_iff_eq_none, List.find?_eq_none, beq_iff_eq] at hnone
      rw [List.map_append, List.nodup_append]
      refine ⟨ih, List.nodup_singleton _, ?_⟩
      simp only [List.mem_map, List.map_cons, List.map_nil, List.mem_singleton]
      rintro _ ⟨s', hs', rfl⟩ _ rfl
      exact hnone s' hs'

/-- Subprograms with different identifiers can be added one after the other. -/
theorem built_of_ids_nodup (ss : List Subprogram) (h : (ss.map (·.id)).Nodup) : Built ⟨ss⟩ := by
  induction ss using List.reverseRecOn with
  | nil => exact .empty
  | append_singleton ss s ih =>
    rw [List.map_append, List.nodup_append] at h
    refine .add (ih h.1) s (if_neg ?_)
    simp only [find?, Option.not_isSome_iff_eq_none, List.find?_eq_none, beq_iff_eq]
    exact fun s' hs' => h.2.2 _ (List.mem_map_of_mem hs') _ (List.mem_singleton_self _)

theorem id_of_find? {p : Program} {id : Nat} {s : Subprogram} (h : p.find? id = some s) :
    s.id = id := by
  simpa using List.find?_some h

theorem mem_of_find? {p : Program} {id : Nat} {s : Subprogram} (h : p.find? id = some s) :
    s ∈ p.subprograms :=
  List.mem_of_find?_eq_some h

theorem Built.find?_eq_some_iff {p : Program} (hp : p.Built) {id : Nat} {s : Subprogram} :
    p.find? id = some s ↔ s ∈ p.subprograms ∧ s.id = id := by
  refine ⟨fun h => ⟨mem_of_find? h, id_of_find? h⟩, ?_⟩
  rintro ⟨hs, rfl⟩
  cases h : p.find? s.id with
  | none => simpa using List.find?_eq_none.1 h s hs
  | some s' =>
    rw [List.inj_on_of_nodup_map hp.ids_nodup (mem_of_find? h) hs (id_of_find? h)]

/-- Which subprogram a number is for does not depend on the order in which they were added. -/
theorem Built.find?_eq_of_perm {p p' : Program} (hp : p.Built) (hp' : p'.Built)
    (hperm : p.subprograms.Perm p'.subprograms) (id : Nat) : p.find? id = p'.find? id := by
  refine Option.ext fun s => ?_
  rw [hp.find?_eq_some_iff, hp'.find?_eq_some_iff, hperm.mem_iff]

/-! ## Orders -/

/-- Each subprogram in the order is one of the program, comes once and after its callees. -/
inductive BottomUp (p : Program) : List Nat → Prop
  | nil : BottomUp p []
  | snoc {order : List Nat} {s : Subprogram} (h : BottomUp p order) (hs : p.find? s.id = some s)
      (hnew : s.id ∉ order) (hcallees : ∀ c ∈ s.callees, c ∈ order) : BottomUp p (order ++ [s.id])

theorem BottomUp.nodup {p : Program} {order : List Nat} (h : p.BottomUp order) : order.Nodup := by
  induction h with
  | nil => exact List.nodup_nil
  | snoc _ _ hnew _ ih => exact List.nodup_append.2 ⟨ih, List.nodup_singleton _, by grind⟩

theorem BottomUp.exists_find? {p : Program} {order : List Nat} (h : p.BottomUp order) {id : Nat}
    (hid : id ∈ order) : ∃ s, p.find? id = some s := by
  induction h with
  | nil => cases hid
  | snoc _ hs _ _ ih =>
    rcases List.mem_append.1 hid with hid | hid
    · exact ih hid
    · rw [List.mem_singleton.1 hid]
      exact ⟨_, hs⟩

/-- In a bottom-up order the callees of a subprogram are in order and come before it. -/
theorem BottomUp.idxOf_lt {p : Program} {order : List Nat} (h : p.BottomUp order) {s : Subprogram}
    (hs : p.find? s.id = some s) (hid : s.id ∈ order) {c : Nat} (hc : c ∈ s.callees) :
    c ∈ order ∧ order.idxOf c < order.idxOf s.id := by
  induction h with
  | nil => cases hid
  | @snoc order last _ hlast hnew hcallees ih =>
    by_cases hold : s.id ∈ order
    · obtain ⟨hmem, hlt⟩ := ih hold
      refine ⟨List.mem_append_left _ hmem, ?_⟩
      rwa [List.idxOf_append_of_mem hmem, List.idxOf_append_of_mem hold]
    · have hid' : s.id = last.id := by simpa [hold] using hid
      obtain rfl : s = last := Option.some.inj (hs.symm.trans (hid' ▸ hlast))
      have hmem := hcallees c hc
      refine ⟨List.mem_append_left _ hmem, ?_⟩
      rw [List.idxOf_append_of_mem hmem, List.idxOf_append_of_notMem hnew]
      exact Nat.lt_add_right _ (List.idxOf_lt_length_iff.2 hmem)

/-! ## The order that is found -/

/-- What has been placed when part of the callees of `path` have been looked at: more than before,
and nothing of the path itself. -/
structure Placed (p : Program) (path order order' : List Nat) : Prop where
  bottomUp : p.BottomUp order'
  kept : ∀ id ∈ order, id ∈ order'
  apart : ∀ id ∈ order', id ∉ order → id ∉ path

theorem Placed.refl {p : Program} {path order : List Nat} (h : p.BottomUp order) :
    Placed p path order order :=
  ⟨h, fun _ hid => hid, fun _ hid hnot => absurd hid hnot⟩

theorem Placed.trans {p : Program} {path order order' order'' : List Nat}
    (h : Placed p path order order') (h' : Placed p path order' order'') :
    Placed p path order order'' where
  bottomUp := h'.bottomUp
  kept id hid := h'.kept id (h.kept id hid)
  apart id hid hnot := by
    by_cases hid' : id ∈ order'
    · exact h.apart id hid' hnot
    · exact h'.apart id hid hid'

/-- Looking at a callee places it, if visits place what they are called for. -/
theorem placed_visitCallee {p : Program} {path : List Nat} {caller callee : Nat}
    {visit : Subprogram → List Nat → Except ProgramError (List Nat)} {order order' : List Nat}
    (hvisit : ∀ s, p.find? s.id = some s → s.id ∉ path → s.id ∉ order →
      visit s order = .ok order' → Placed p path order order' ∧ s.id ∈ order')
    (horder : p.BottomUp order) (h : visitCallee p visit path caller order callee = .ok order') :
    Placed p path order order' ∧ callee ∈ order' := by
  unfold visitCallee at h
  split at h
  · cases h
  · next s hs =>
    have hid := id_of_find? hs
    split at h
    · cases h
    · next hout =>
      split at h
      · next hin =>
        cases h
        exact ⟨.refl horder, List.contains_iff_mem.1 hin⟩
      · next hin =>
        rw [List.contains_iff_mem, ← hid] at hout hin
        rw [← hid] at hs ⊢
        exact hvisit s hs hout hin h

/-- The visit of a subprogram places it after its callees, and nothing that led to it. -/
theorem placed_visit {p : Program} (depth : Nat) {path order order' : List Nat} {s : Subprogram}
    (hs : p.find? s.id = some s) (hpath : s.id ∉ path) (hnew : s.id ∉ order)
    (horder : p.BottomUp order) (h : p.visit depth path s order = .ok order') :
    Placed p path order order' ∧ s.id ∈ order' := by
  induction depth generalizing path s order order' with
  | zero => cases h
  | succ depth ih =>
    simp only [visit] at h
    split at h
    · cases h
    · next order₁ hfold =>
      cases h
      -- the callees looked at are in order, and the path up to `s` stays out of it
      have hcallees : Placed p (s.id :: path) order order₁ ∧ ∀ c ∈ s.callees, c ∈ order₁ := by
        refine foldlM_ok_induction
          (P := fun done o => Placed p (s.id :: path) order o ∧ ∀ c ∈ done, c ∈ o)
          ⟨.refl horder, fun c hc => absurd hc List.not_mem_nil⟩ ?_ hfold
        rintro done callee o o' - ⟨hplaced, hdone⟩ hstep
        obtain ⟨hnext, hmem⟩ := placed_visitCallee
          (fun _ hs' hout hin => ih hs' hout hin hplaced.bottomUp) hplaced.bottomUp hstep
        refine ⟨hplaced.trans hnext, fun c hc => ?_⟩
        rcases List.mem_append.1 hc with hc | hc
        · exact hnext.kept c (hdone c hc)
        · rwa [List.mem_singleton.1 hc]
      obtain ⟨hplaced, hcallees⟩ := hcallees
      have hfresh : s.id ∉ order₁ := fun hmem =>
        hplaced.apart s.id hmem hnew List.mem_cons_self
      refine ⟨⟨hplaced.bottomUp.snoc hs hfresh hcallees, fun id hid => ?_, fun id hid hnot => ?_⟩,
        by simp⟩
      · exact List.mem_append_left _ (hplaced.kept id hid)
      · rcases List.mem_append.1 hid with hid | hid
        · exact fun hmem => hplaced.apart id hid hnot (List.mem_cons_of_mem _ hmem)
        · rwa [List.mem_singleton.1 hid]

/-- Visiting some of the subprograms places all of them, in an order that is bottom-up. -/
theorem Built.bottomUp_of_foldlM {p : Program} (hp : p.Built) {ss : List Subprogram}
    (hss : ∀ s ∈ ss, s ∈ p.subprograms) {order : List Nat}
    (h : ss.foldlM (visitRoot p) [] = .ok order) : p.BottomUp order ∧ ∀ s ∈ ss, s.id ∈ order := by
  refine foldlM_ok_induction (P := fun done o => p.BottomUp o ∧ ∀ s ∈ done, s.id ∈ o)
    ⟨.nil, fun s hs => absurd hs List.not_mem_nil⟩ ?_ h
  rintro done s o o' hs ⟨horder, hdone⟩ hstep
  unfold visitRoot at hstep
  have hnext : p.BottomUp o' ∧ (∀ id ∈ o, id ∈ o') ∧ s.id ∈ o' := by
    split at hstep
    · next hin =>
      cases hstep
      exact ⟨horder, fun _ hid => hid, List.contains_iff_mem.1 hin⟩
    · next hin =>
      rw [List.contains_iff_mem] at hin
      obtain ⟨hplaced, hmem⟩ := placed_visit _ (hp.find?_eq_some_iff.2 ⟨hss s hs, rfl⟩)
        List.not_mem_nil hin horder hstep
      exact ⟨hplaced.bottomUp, hplaced.kept, hmem⟩
  refine ⟨hnext.1, fun s' hs' => ?_⟩
  rcases List.mem_append.1 hs' with hs' | hs'
  · exact hnext.2.1 _ (hdone s' hs')
  · rw [List.mem_singleton.1 hs']
    exact hnext.2.2

/-- The order that is found is bottom-up and has every subprogram. -/
theorem Built.bottomUp_of_eq_ok {p : Program} (hp : p.Built) {order : List Nat}
    (h : p.bottomUp = .ok order) : p.BottomUp order ∧ ∀ s ∈ p.subprograms, s.id ∈ order :=
  hp.bottomUp_of_foldlM (fun _ hs => hs) h

/-- A bottom-up order of all subprograms has the numbers of the program, each once. -/
theorem Built.perm_of_bottomUp {p : Program} (hp : p.Built) {order : List Nat}
    (h : p.BottomUp order) (hall : ∀ s ∈ p.subprograms, s.id ∈ order) :
    order.Perm (p.subprograms.map (·.id)) := by
  refine (List.perm_ext_iff_of_nodup h.nodup hp.ids_nodup).2 fun id => ⟨fun hid => ?_, ?_⟩
  · obtain ⟨s, hs⟩ := h.exists_find? hid
    exact List.mem_map.2 ⟨s, mem_of_find? hs, id_of_find? hs⟩
  · intro hid
    obtain ⟨s, hs, rfl⟩ := List.mem_map.1 hid
    exact hall s hs

/-! ## When there is an order -/

/-- Callees are in the program and have smaller numbers than their callers, and no number is larger
than the program. -/
structure Ranked (p : Program) (rank : Nat → Nat) : Prop where
  callee : ∀ s, p.find? s.id = some s → ∀ c ∈ s.callees,
    ∃ s', p.find? c = some s' ∧ rank c < rank s.id
  bounded : ∀ s, p.find? s.id = some s → rank s.id < p.subprograms.length

theorem Ranked.exists_visit {p : Program} {rank : Nat → Nat} (h : p.Ranked rank) (depth : Nat)
    {path : List Nat} {s : Subprogram} (hs : p.find? s.id = some s) (hdepth : rank s.id < depth)
    (hpath : ∀ id ∈ path, rank s.id < rank id) (order : List Nat) :
    ∃ order', p.visit depth path s order = .ok order' := by
  induction depth generalizing path s order with
  | zero => omega
  | succ depth ih =>
    have hcallee : ∀ c ∈ s.callees, ∀ o, ∃ o',
        visitCallee p (visit p depth (s.id :: path)) (s.id :: path) s.id o c = .ok o' := by
      intro c hc o
      obtain ⟨s', hs', hlt⟩ := h.callee s hs c hc
      have hid := id_of_find? hs'
      -- a callee on the path would have a smaller number than itself
      have hbelow : ∀ id ∈ s.id :: path, rank c < rank id := by
        intro id hmem
        rcases List.mem_cons.1 hmem with rfl | hmem
        · exact hlt
        · exact Nat.lt_trans hlt (hpath id hmem)
      have hout : (s.id :: path).contains c = false := by
        rw [← Bool.not_eq_true, List.contains_iff_mem]
        exact fun hmem => Nat.lt_irrefl _ (hbelow c hmem)
      simp only [visitCallee, hs', hout, Bool.false_eq_true, ↓reduceIte]
      split
      · exact ⟨o, rfl⟩
      · rw [← hid] at hs' hbelow hlt
        exact ih hs' (by omega) hbelow o
    obtain ⟨order₁, hfold⟩ := exists_foldlM_ok hcallee order
    exact ⟨order₁ ++ [s.id], by simp only [visit, hfold]⟩

theorem Ranked.exists_bottomUp {p : Program} {rank : Nat → Nat} (h : p.Ranked rank) (hp : p.Built) :
    ∃ order, p.bottomUp = .ok order := by
  refine exists_foldlM_ok (fun s hs o => ?_) []
  have hs' := hp.find?_eq_some_iff.2 ⟨hs, rfl⟩
  unfold visitRoot
  split
  · exact ⟨o, rfl⟩
  · exact h.exists_visit _ hs' (h.bounded s hs') (fun id hid => absurd hid List.not_mem_nil) o

/-- Whether there is an order does not depend on the order in which subprograms were added. -/
theorem Built.exists_bottomUp_of_perm {p p' : Program} (hp : p.Built) (hp' : p'.Built)
    (hperm : p.subprograms.Perm p'.subprograms) {order : List Nat} (h : p.bottomUp = .ok order) :
    ∃ order', p'.bottomUp = .ok order' := by
  obtain ⟨horder, hall⟩ := hp.bottomUp_of_eq_ok h
  have hfind := hp.find?_eq_of_perm hp' hperm
  have hmem : ∀ s, p'.find? s.id = some s → s.id ∈ order := fun s hs =>
    hall s (mem_of_find? ((hfind _).trans hs))
  suffices hrank : p'.Ranked order.idxOf from hrank.exists_bottomUp hp'
  refine ⟨fun s hs c hc => ?_, fun s hs => ?_⟩
  · obtain ⟨hcmem, hlt⟩ := horder.idxOf_lt ((hfind _).trans hs) (hmem s hs) hc
    obtain ⟨s', hs'⟩ := horder.exists_find? hcmem
    exact ⟨s', (hfind _).symm.trans hs', hlt⟩
  · have hlen := (hp.perm_of_bottomUp horder hall).length_eq
    rw [List.length_map, hperm.length_eq] at hlen
    rw [← hlen]
    exact List.idxOf_lt_length_iff.2 (hmem s hs)

end Program

end WorstCase
