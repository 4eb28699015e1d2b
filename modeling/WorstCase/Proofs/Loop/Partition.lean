import WorstCase.Loop.Partition
import WorstCase.Proofs.Loop.Nest
import WorstCase.Proofs.Ordered.NatMap

/-!
# Loop edges by header

The partition of a graph lists, for each header, exactly the edges whose role names it, in the order
of the vertices (`LoopPartition.Sorts`, `sorts_of_ofGraph`). The headers that it lists around a
header are headers of loops that contain it (`contains_of_mem_ancestorsOf`), the header itself among
them (`self_mem_ancestorsOf`).
-/

namespace WorstCase

namespace Edge

/-- The edge starts an iteration of the loop of `h`. -/
def iterates (h : Nat) (e : Edge) : Bool :=
  match e.kind with
  | .iteration headers => headers.contains h
  | .trace | .ghost | .inlined _ | .entry _ | .exit _ => false

/-- The edge is tagged as one that enters the loop of `h`. -/
def enters (h : Nat) (e : Edge) : Bool :=
  e.kind == .entry h

/-- The edge is tagged as one that leaves the loop of `h`. -/
def leaves (h : Nat) (e : Edge) : Bool :=
  e.kind == .exit h

theorem iterates_iff {h : Nat} {e : Edge} :
    e.iterates h ↔ ∃ headers, e.kind = .iteration headers ∧ h ∈ headers := by
  unfold iterates
  split <;> simp_all

theorem enters_iff {h : Nat} {e : Edge} : e.enters h ↔ e.kind = .entry h :=
  beq_iff_eq

theorem leaves_iff {h : Nat} {e : Edge} : e.leaves h ↔ e.kind = .exit h :=
  beq_iff_eq

end Edge

namespace LoopPartition

/-! ## Sorting edges in -/

/-- The list stored for a header. -/
def listAt (lists : NatMap (List Nat)) (h : Nat) : List Nat :=
  (lists.get? h).getD []

/-- An edge is added to the list of one header. -/
theorem listAt_push {lists lists' : NatMap (List Nat)} {edge header : Nat}
    (h : push lists edge header = .ok lists') (k : Nat) :
    listAt lists' k = listAt lists k ++ if k = header then [edge] else [] := by
  unfold push at h
  split at h
  · next edges he =>
    cases h
    rw [listAt, NatMap.get?_insert]
    split
    · next hk => rw [hk, listAt, he, Option.getD_some, Option.getD_some]
    · rw [List.append_nil, listAt]
  · cases h

/-- An edge is added to the list of each header that its tag names. -/
theorem listAt_pushAll {lists lists' : NatMap (List Nat)} {edge : Nat} {headers : List Nat}
    (hd : headers.Nodup) (h : pushAll lists edge headers = .ok lists') (k : Nat) :
    listAt lists' k = listAt lists k ++ if k ∈ headers then [edge] else [] := by
  induction headers generalizing lists with
  | nil =>
    cases h
    simp only [List.not_mem_nil, ↓reduceIte, List.append_nil]
  | cons header headers ih =>
    unfold pushAll at h
    obtain ⟨hnot, hd⟩ := List.nodup_cons.1 hd
    split at h
    · cases h
    · next lists₁ h₁ =>
      rw [ih hd h, listAt_push h₁, List.append_assoc]
      by_cases hk : k = header
      · subst hk
        simp only [hnot, List.mem_cons_self, ↓reduceIte, List.append_nil]
      · simp only [hk, List.mem_cons, false_or, ↓reduceIte, List.nil_append]

/-- The partition lists the given edges, each under the headers that its role names. -/
structure Sorts (es : List Edge) (p : LoopPartition) : Prop where
  back : ∀ h, p.backOf h = (es.filter (·.iterates h)).map (·.id)
  entry : ∀ h, p.entryOf h = (es.filter (·.enters h)).map (·.id)
  exit : ∀ h, p.exitOf h = (es.filter (·.leaves h)).map (·.id)

theorem map_filter_append (q : Edge → Bool) (es : List Edge) (e : Edge) :
    ((es ++ [e]).filter q).map (·.id) =
      (es.filter q).map (·.id) ++ if q e then [e.id] else [] := by
  rw [List.filter_append, List.map_append]
  cases hq : q e with
  | false => simp only [List.filter_cons, hq, Bool.false_eq_true, ↓reduceIte, List.filter_nil,
      List.map_nil]
  | true => simp only [List.filter_cons, hq, ↓reduceIte, List.filter_nil, List.map_cons,
      List.map_nil]

/-- An edge is added to the lists of the headers that it iterates, enters and leaves, and to no
other. -/
theorem add_eq_ok {p p' : LoopPartition} {e : Edge} (hk : e.kind.Ascending)
    (h : p.add e = .ok p') : p'.ancestors = p.ancestors ∧
      (∀ k, p'.backOf k = p.backOf k ++ if e.iterates k then [e.id] else []) ∧
      (∀ k, p'.entryOf k = p.entryOf k ++ if e.enters k then [e.id] else []) ∧
      (∀ k, p'.exitOf k = p.exitOf k ++ if e.leaves k then [e.id] else []) := by
  obtain ⟨id, source, destination, kind⟩ := e
  unfold add at h
  cases kind with
  | iteration headers =>
    simp only at h
    split at h
    · cases h
    · next lists hl =>
      cases h
      have hnd : headers.Nodup := (show headers.Pairwise (· < ·) from hk).imp Nat.ne_of_lt
      refine ⟨rfl, fun k => ?_, fun k => ?_, fun k => ?_⟩
      · exact (listAt_pushAll hnd hl k).trans
          (congrArg _ (if_congr List.contains_iff_mem.symm rfl rfl))
      · exact (List.append_nil _).symm
      · exact (List.append_nil _).symm
  | entry header =>
    simp only at h
    split at h
    · cases h
    · next lists hl =>
      cases h
      refine ⟨rfl, fun k => ?_, fun k => ?_, fun k => ?_⟩
      · exact (List.append_nil _).symm
      · refine (listAt_push hl k).trans (congrArg _ (if_congr ?_ rfl rfl))
        rw [Edge.enters_iff, EdgeKind.entry.injEq, eq_comm]
      · exact (List.append_nil _).symm
  | exit header =>
    simp only at h
    split at h
    · cases h
    · next lists hl =>
      cases h
      refine ⟨rfl, fun k => ?_, fun k => ?_, fun k => ?_⟩
      · exact (List.append_nil _).symm
      · exact (List.append_nil _).symm
      · refine (listAt_push hl k).trans (congrArg _ (if_congr ?_ rfl rfl))
        rw [Edge.leaves_iff, EdgeKind.exit.injEq, eq_comm]
  | trace =>
    cases h
    exact ⟨rfl, fun _ => (List.append_nil _).symm, fun _ => (List.append_nil _).symm,
      fun _ => (List.append_nil _).symm⟩
  | ghost =>
    cases h
    exact ⟨rfl, fun _ => (List.append_nil _).symm, fun _ => (List.append_nil _).symm,
      fun _ => (List.append_nil _).symm⟩
  | inlined callee =>
    cases h
    exact ⟨rfl, fun _ => (List.append_nil _).symm, fun _ => (List.append_nil _).symm,
      fun _ => (List.append_nil _).symm⟩

theorem Sorts.add {es : List Edge} {p p' : LoopPartition} {e : Edge} (hp : Sorts es p)
    (hk : e.kind.Ascending) (h : p.add e = .ok p') : Sorts (es ++ [e]) p' := by
  obtain ⟨-, hb, hn, hx⟩ := add_eq_ok hk h
  refine ⟨fun k => ?_, fun k => ?_, fun k => ?_⟩
  · rw [hb, hp.back, map_filter_append]
  · rw [hn, hp.entry, map_filter_append]
  · rw [hx, hp.exit, map_filter_append]

theorem Sorts.addAll {es : List Edge} {p p' : LoopPartition} {fs : List Edge} (hp : Sorts es p)
    (hk : ∀ e ∈ fs, e.kind.Ascending) (h : p.addAll fs = .ok p') :
    Sorts (es ++ fs) p' ∧ p'.ancestors = p.ancestors := by
  induction fs generalizing es p with
  | nil =>
    cases h
    rw [List.append_nil]
    exact ⟨hp, rfl⟩
  | cons e fs ih =>
    unfold LoopPartition.addAll at h
    split at h
    · cases h
    · next p₁ h₁ =>
      have hke := hk e List.mem_cons_self
      obtain ⟨hs, ha⟩ := ih (hp.add hke h₁) (fun d hd => hk d (List.mem_cons_of_mem _ hd)) h
      rw [List.append_assoc, List.singleton_append] at hs
      exact ⟨hs, ha.trans (add_eq_ok hke h₁).1⟩

/-! ## The start -/

/-- The entry of a header in a partition without edges. -/
def startStep (p : LoopPartition) (h : LoopHeader) : LoopPartition :=
  let around := match h.parent with
    | some parent => (p.ancestors.get? parent).getD []
    | none => []
  { backEdges := p.backEdges.insert h.id []
    entryEdges := p.entryEdges.insert h.id []
    exitEdges := p.exitEdges.insert h.id []
    ancestors := p.ancestors.insert h.id (h.id :: around) }

theorem start_eq (n : LoopNest) :
    start n = n.headersOutward.foldl startStep ⟨.empty, .empty, .empty, .empty⟩ :=
  rfl

theorem listAt_insert_nil {lists : NatMap (List Nat)} {h : Nat} (hl : ∀ k, listAt lists k = [])
    (k : Nat) : listAt (lists.insert h []) k = [] := by
  rw [listAt, NatMap.get?_insert]
  split
  · rfl
  · exact hl k

/-- At the start no edge has been sorted, and all lists are empty. -/
theorem sorts_start (n : LoopNest) : Sorts [] (start n) := by
  rw [start_eq]
  refine List.foldlRecOn (motive := Sorts []) n.headersOutward startStep
    ⟨fun _ => rfl, fun _ => rfl, fun _ => rfl⟩ fun p hp h _ => ?_
  exact ⟨listAt_insert_nil hp.back, listAt_insert_nil hp.entry, listAt_insert_nil hp.exit⟩

/-- The partition of a graph sorts its edges, vertex by vertex. -/
theorem sorts_of_ofGraph {g : FlowGraph} {n : LoopNest} {p : LoopPartition} (hg : g.WellFormed)
    (h : ofGraph g n = .ok p) :
    Sorts g.edgesByVertex p ∧ p.ancestors = (start n).ancestors := by
  have hk : ∀ e ∈ g.edgesByVertex, e.kind.Ascending := fun e he =>
    hg.ascending e (hg.edgesByVertex_perm.mem_iff.1 he)
  exact (sorts_start n).addAll hk h

/-! ## Headers around a header -/

section ancestors

variable {g : FlowGraph} {t : DepthFirstTree} {n : LoopNest} (hn : LoopNest.Found g t n)

include hn

/-- What is listed around a header, while the headers are entered from the root inwards. -/
theorem ancestorsOf_foldl {hs : List LoopHeader} {p : LoopPartition}
    (hhs : ∀ h ∈ hs, n.header? h.id = some h)
    (hp : ∀ k, ∀ a ∈ p.ancestorsOf k, n.contains a k ∧ n.isHeader a) :
    ∀ k, ∀ a ∈ (hs.foldl startStep p).ancestorsOf k, n.contains a k ∧ n.isHeader a := by
  induction hs generalizing p with
  | nil => exact hp
  | cons h hs ih =>
    have hh := hhs h List.mem_cons_self
    refine ih (fun d hd => hhs d (List.mem_cons_of_mem _ hd)) fun k a ha => ?_
    simp only [ancestorsOf, startStep, NatMap.get?_insert] at ha
    split at ha
    · next hk =>
      subst hk
      rw [Option.getD_some] at ha
      rcases List.mem_cons.1 ha with rfl | ha
      · exact ⟨hn.contains_refl _, by rw [LoopNest.isHeader, hh]; rfl⟩
      · cases hpar : h.parent with
        | none =>
          rw [hpar] at ha
          cases ha
        | some parent =>
          rw [hpar] at ha
          obtain ⟨hc, hah⟩ := hp parent a ha
          have hup : n.parent? h.id = some parent := (LoopNest.parent?_of_header? hh).trans hpar
          exact ⟨hn.contains_trans hc (hn.contains_parent hup), hah⟩
    · exact hp k a ha

/-- What is listed as around a header are headers whose loops contain it. -/
theorem contains_of_mem_ancestorsOf {p : LoopPartition} (hp : p.ancestors = (start n).ancestors)
    {h a : Nat} (ha : a ∈ p.ancestorsOf h) : n.contains a h ∧ n.isHeader a := by
  rw [ancestorsOf, hp, start_eq] at ha
  exact ancestorsOf_foldl hn (fun h hh => hn.mem_headersOutward.1 hh)
    (fun k a ha => by cases ha) h a ha

theorem self_mem_ancestorsOf {p : LoopPartition} (hp : p.ancestors = (start n).ancestors)
    {h : Nat} (hh : n.isHeader h) : h ∈ p.ancestorsOf h := by
  obtain ⟨lh, hlh⟩ := Option.isSome_iff_exists.1 hh
  have hid : lh.id = h := LoopNest.id_of_header? hlh
  have hmem : lh ∈ n.headersOutward := hn.mem_headersOutward.2 (hid ▸ hlh)
  -- once entered, a header stays among those listed around it
  have key : ∀ (hs : List LoopHeader) (p : LoopPartition),
      h ∈ p.ancestorsOf h ∨ lh ∈ hs → h ∈ (hs.foldl startStep p).ancestorsOf h := by
    intro hs
    induction hs with
    | nil => exact fun p hor => hor.resolve_right List.not_mem_nil
    | cons d hs ih =>
      intro p hor
      refine ih _ ?_
      by_cases hd : h = d.id
      · refine Or.inl ?_
        simp only [ancestorsOf, startStep, NatMap.get?_insert, if_pos hd, Option.getD_some]
        exact hd ▸ List.mem_cons_self
      · rcases hor with hor | hor
        · refine Or.inl ?_
          simpa only [ancestorsOf, startStep, NatMap.get?_insert, if_neg hd] using hor
        · rcases List.mem_cons.1 hor with rfl | hor
          · exact absurd hid.symm hd
          · exact Or.inr hor
  rw [ancestorsOf, hp, start_eq]
  exact key n.headersOutward _ (Or.inr hmem)

end ancestors

end LoopPartition

end WorstCase
