import WorstCase.Proofs.Loop.Partition
import WorstCase.Proofs.Loop.Shape

/-!
# When loop edges can be sorted

The edges of a graph can be sorted over the headers of its nest exactly if the roles name headers
only (`LoopPartition.isHeader_of_ofGraph`, `LoopPartition.ofGraph_eq_error`). What is listed around
a header are the headers around it, from the inside out (`LoopPartition.ancestorsOf_eq`). Where the
edges cannot be sorted, the complaint is about the first edge whose role names a vertex that is no
header, and about the smallest such vertex (`LoopPartition.exists_first_stray`). Together this is
all that sorting says (`LoopPartition.sorting_of_ofGraph`).
-/

namespace WorstCase

/-- The headers that a role names. -/
def EdgeKind.headers : EdgeKind → List Nat
  | .iteration headers => headers
  | .entry header | .exit header => [header]
  | .trace | .ghost | .inlined _ => []

/-- The tag is about an edge and names the smallest number of its role that is no header. -/
structure StrayTag.IsLeast (n : LoopNest) (e : Edge) (tag : StrayTag) : Prop where
  edge : tag.edge = e.id
  named : tag.header ∈ e.kind.headers
  stray : ¬ n.isHeader tag.header
  least : ∀ a ∈ e.kind.headers, ¬ n.isHeader a → tag.header ≤ a

namespace LoopPartition

/-! ## Headers that are listed -/

/-- There is a list for each header of the nest, and for no other vertex. -/
def ListsHeaders (n : LoopNest) (lists : NatMap (List Nat)) : Prop :=
  ∀ k, (lists.get? k).isSome ↔ n.isHeader k

variable {n : LoopNest} {lists lists' : NatMap (List Nat)} {edge header : Nat} {tag : StrayTag}

theorem ListsHeaders.insert (hl : ListsHeaders n lists) (hh : n.isHeader header) (es : List Nat) :
    ListsHeaders n (lists.insert header es) := by
  intro k
  rw [NatMap.get?_insert]
  split
  · next hk =>
    rw [hk]
    exact ⟨fun _ => hh, fun _ => rfl⟩
  · exact hl k

theorem ListsHeaders.push (hl : ListsHeaders n lists) (h : push lists edge header = .ok lists') :
    n.isHeader header ∧ ListsHeaders n lists' := by
  unfold LoopPartition.push at h
  split at h
  · next es hes =>
    cases h
    have hh := (hl header).1 (Option.isSome_of_eq_some hes)
    exact ⟨hh, hl.insert hh _⟩
  · cases h

/-- The error names the edge and what is no header. -/
theorem ListsHeaders.push_error (hl : ListsHeaders n lists)
    (h : LoopPartition.push lists edge header = .error tag) :
    tag = ⟨edge, header⟩ ∧ ¬ n.isHeader header := by
  unfold LoopPartition.push at h
  split at h
  · cases h
  · next hnone =>
    cases h
    rw [← hl header, hnone]
    exact ⟨rfl, Bool.false_ne_true⟩

theorem ListsHeaders.pushAll (hl : ListsHeaders n lists) {headers : List Nat}
    (h : pushAll lists edge headers = .ok lists') :
    (∀ a ∈ headers, n.isHeader a) ∧ ListsHeaders n lists' := by
  induction headers generalizing lists with
  | nil =>
    cases h
    exact ⟨fun a ha => absurd ha List.not_mem_nil, hl⟩
  | cons header headers ih =>
    unfold LoopPartition.pushAll at h
    split at h
    · cases h
    · next lists₁ h₁ =>
      obtain ⟨hh, hl₁⟩ := hl.push h₁
      obtain ⟨hhs, hl'⟩ := ih hl₁ h
      exact ⟨List.forall_mem_cons.2 ⟨hh, hhs⟩, hl'⟩

/-- The headers of a role come in ascending order, so the first that is refused is the smallest. -/
theorem ListsHeaders.pushAll_error (hl : ListsHeaders n lists) {headers : List Nat}
    (hs : headers.Pairwise (· < ·)) (h : LoopPartition.pushAll lists edge headers = .error tag) :
    tag.edge = edge ∧ tag.header ∈ headers ∧ ¬ n.isHeader tag.header ∧
      ∀ a ∈ headers, ¬ n.isHeader a → tag.header ≤ a := by
  induction headers generalizing lists with
  | nil => cases h
  | cons header headers ih =>
    obtain ⟨hlt, hs⟩ := List.pairwise_cons.1 hs
    unfold LoopPartition.pushAll at h
    split at h
    · next tag' htag =>
      cases h
      obtain ⟨rfl, hh⟩ := hl.push_error htag
      refine ⟨rfl, List.mem_cons_self, hh, fun a ha _ => ?_⟩
      rcases List.mem_cons.1 ha with rfl | ha
      · exact Nat.le_refl _
      · exact Nat.le_of_lt (hlt a ha)
    · next lists₁ h₁ =>
      obtain ⟨hheader, hl₁⟩ := hl.push h₁
      obtain ⟨he, hmem, hh, hleast⟩ := ih hl₁ hs h
      refine ⟨he, List.mem_cons_of_mem _ hmem, hh, fun a ha hno => ?_⟩
      rcases List.mem_cons.1 ha with rfl | ha
      · exact absurd hheader hno
      · exact hleast a ha hno

/-- The lists of the partition are those of the headers of the nest. -/
structure Of (n : LoopNest) (p : LoopPartition) : Prop where
  back : ListsHeaders n p.backEdges
  entry : ListsHeaders n p.entryEdges
  exit : ListsHeaders n p.exitEdges

variable {p p' : LoopPartition} {e : Edge}

/-- An edge can be added if all that its tag names are headers. -/
theorem Of.add (hp : Of n p) (h : p.add e = .ok p') :
    (∀ a ∈ e.kind.headers, n.isHeader a) ∧ Of n p' := by
  unfold LoopPartition.add at h
  cases hk : e.kind with
  | iteration headers =>
    rw [hk] at h
    simp only at h
    split at h
    · cases h
    · next lists hl =>
      cases h
      obtain ⟨hh, hl⟩ := hp.back.pushAll hl
      exact ⟨hh, hl, hp.entry, hp.exit⟩
  | entry header =>
    rw [hk] at h
    simp only at h
    split at h
    · cases h
    · next lists hl =>
      cases h
      obtain ⟨hh, hl⟩ := hp.entry.push hl
      exact ⟨List.forall_mem_singleton.2 hh, hp.back, hl, hp.exit⟩
  | exit header =>
    rw [hk] at h
    simp only at h
    split at h
    · cases h
    · next lists hl =>
      cases h
      obtain ⟨hh, hl⟩ := hp.exit.push hl
      exact ⟨List.forall_mem_singleton.2 hh, hp.back, hp.entry, hl⟩
  | trace | ghost | inlined =>
    rw [hk] at h
    cases h
    exact ⟨fun a ha => absurd ha List.not_mem_nil, hp⟩

theorem isLeast_singleton {header : Nat} (hk : e.kind.headers = [header])
    (hh : ¬ n.isHeader header) : StrayTag.IsLeast n e ⟨e.id, header⟩ where
  edge := rfl
  named := hk ▸ List.mem_singleton_self header
  stray := hh
  least a ha _ := by
    rw [hk, List.mem_singleton] at ha
    exact Nat.le_of_eq ha.symm

/-- The error names the least of what the tag names that is no header. -/
theorem Of.add_error (hp : Of n p) (hs : e.kind.Ascending) (h : p.add e = .error tag) :
    tag.IsLeast n e := by
  unfold LoopPartition.add at h
  cases hk : e.kind with
  | iteration headers =>
    rw [hk] at h hs
    simp only at h
    split at h
    · next htag =>
      cases h
      obtain ⟨hedge, hnamed, hstray, hleast⟩ := hp.back.pushAll_error hs htag
      have hheaders : e.kind.headers = headers := by rw [hk]; rfl
      exact ⟨hedge, hheaders ▸ hnamed, hstray, hheaders ▸ hleast⟩
    · cases h
  | entry header =>
    rw [hk] at h
    simp only at h
    split at h
    · next htag =>
      cases h
      obtain ⟨rfl, hh⟩ := hp.entry.push_error htag
      exact isLeast_singleton (by rw [hk]; rfl) hh
    · cases h
  | exit header =>
    rw [hk] at h
    simp only at h
    split at h
    · next htag =>
      cases h
      obtain ⟨rfl, hh⟩ := hp.exit.push_error htag
      exact isLeast_singleton (by rw [hk]; rfl) hh
    · cases h
  | trace | ghost | inlined =>
    rw [hk] at h
    cases h

theorem Of.addAll (hp : Of n p) {es : List Edge} (h : p.addAll es = .ok p') :
    ∀ e ∈ es, ∀ a ∈ e.kind.headers, n.isHeader a := by
  induction es generalizing p with
  | nil => exact fun e he => absurd he List.not_mem_nil
  | cons e es ih =>
    unfold LoopPartition.addAll at h
    split at h
    · cases h
    · next p₁ h₁ =>
      obtain ⟨hh, hp₁⟩ := hp.add h₁
      exact List.forall_mem_cons.2 ⟨hh, ih hp₁ h⟩

/-- The edge that is refused is the first whose role names a vertex that is no header. -/
theorem Of.addAll_error (hp : Of n p) {es : List Edge} (hs : ∀ e ∈ es, e.kind.Ascending)
    (h : p.addAll es = .error tag) : ∃ before e after, es = before ++ e :: after ∧
      (∀ d ∈ before, ∀ a ∈ d.kind.headers, n.isHeader a) ∧ tag.IsLeast n e := by
  induction es generalizing p with
  | nil => cases h
  | cons e es ih =>
    obtain ⟨hse, hs⟩ := List.forall_mem_cons.1 hs
    unfold LoopPartition.addAll at h
    split at h
    · next htag =>
      cases h
      exact ⟨[], e, es, rfl, fun d hd => absurd hd List.not_mem_nil, hp.add_error hse htag⟩
    · next p₁ h₁ =>
      obtain ⟨hh, hp₁⟩ := hp.add h₁
      obtain ⟨before, d, after, rfl, hbefore, hstray⟩ := ih hp₁ hs h
      exact ⟨e :: before, d, after, rfl, List.forall_mem_cons.2 ⟨hh, hbefore⟩, hstray⟩

/-! ## The start -/

section start

variable {g : FlowGraph} {t : DepthFirstTree} (hn : LoopNest.FoundFrom g t n)

include hn

/-- At the start there is a list for each header and for nothing else. -/
theorem of_start : Of n (start n) := by
  -- a list is there once its header has been entered
  have hfold : ∀ (hs : List LoopHeader) (p : LoopPartition) (k : Nat),
      (((hs.foldl startStep p).backEdges.get? k).isSome ↔
        (p.backEdges.get? k).isSome ∨ ∃ h ∈ hs, h.id = k) ∧
      (((hs.foldl startStep p).entryEdges.get? k).isSome ↔
        (p.entryEdges.get? k).isSome ∨ ∃ h ∈ hs, h.id = k) ∧
      (((hs.foldl startStep p).exitEdges.get? k).isSome ↔
        (p.exitEdges.get? k).isSome ∨ ∃ h ∈ hs, h.id = k) := by
    intro hs
    induction hs with
    | nil =>
      intro p k
      simp only [List.foldl_nil, List.not_mem_nil, false_and, exists_false, or_false, and_self]
    | cons h hs ih =>
      intro p k
      have hinsert : ∀ lists : NatMap (List Nat), ((lists.insert h.id []).get? k).isSome ↔
          (lists.get? k).isSome ∨ h.id = k := by
        intro lists
        rw [NatMap.get?_insert]
        split
        · next hk => exact ⟨fun _ => .inr hk.symm, fun _ => rfl⟩
        · next hk => exact ⟨.inl, fun ho => ho.resolve_right fun hc => hk hc.symm⟩
      obtain ⟨hb, he, hx⟩ := ih (startStep p h) k
      simp only [List.foldl_cons, List.mem_cons, exists_eq_or_imp, ← or_assoc]
      exact ⟨hb.trans (or_congr_left (hinsert _)), he.trans (or_congr_left (hinsert _)),
        hx.trans (or_congr_left (hinsert _))⟩
  have hheader : ∀ k, (∃ h ∈ n.headersOutward, h.id = k) ↔ n.isHeader k := by
    intro k
    constructor
    · rintro ⟨h, hh, rfl⟩
      exact Option.isSome_of_eq_some (hn.mem_headersOutward.1 hh)
    · intro hk
      obtain ⟨h, hh⟩ := Option.isSome_iff_exists.1 hk
      obtain rfl := LoopNest.id_of_header? hh
      exact ⟨h, hn.mem_headersOutward.2 hh, rfl⟩
  have hempty : ∀ k, ((NatMap.empty : NatMap (List Nat)).get? k).isSome ∨
      (∃ h ∈ n.headersOutward, h.id = k) ↔ n.isHeader k := fun k =>
    (or_iff_right Bool.false_ne_true).trans (hheader k)
  rw [start_eq]
  exact ⟨fun k => ((hfold _ _ k).1).trans (hempty k), fun k => ((hfold _ _ k).2.1).trans (hempty k),
    fun k => ((hfold _ _ k).2.2).trans (hempty k)⟩

/-- Where the edges of a graph can be sorted, roles name headers only. -/
theorem isHeader_of_ofGraph (h : ofGraph g n = .ok p) {e : Edge} (he : e ∈ g.edges) {a : Nat}
    (ha : a ∈ e.kind.headers) : n.isHeader a :=
  (of_start hn).addAll h e (hn.wellFormed.edgesByVertex_perm.mem_iff.2 he) a ha

/-- The error is about the first edge whose tag names something that is no header. -/
theorem exists_first_stray (h : ofGraph g n = .error tag) :
    ∃ before e after, g.edgesByVertex = before ++ e :: after ∧
      (∀ d ∈ before, ∀ a ∈ d.kind.headers, n.isHeader a) ∧ tag.IsLeast n e :=
  (of_start hn).addAll_error (fun e he =>
    hn.wellFormed.ascending e (hn.wellFormed.edgesByVertex_perm.mem_iff.1 he)) h

/-- The edge that is refused names a vertex that is no header. -/
theorem ofGraph_eq_error (h : ofGraph g n = .error tag) : ∃ e ∈ g.edges,
    tag.edge = e.id ∧ tag.header ∈ e.kind.headers ∧ ¬ n.isHeader tag.header := by
  obtain ⟨before, e, after, he, -, hstray⟩ := exists_first_stray hn h
  have hmem : e ∈ g.edgesByVertex := he ▸ List.mem_append_right before List.mem_cons_self
  exact ⟨e, hn.wellFormed.edgesByVertex_perm.mem_iff.1 hmem, hstray.edge, hstray.named,
    hstray.stray⟩

/-- Sorting fails exactly if some tag names something that is no header. -/
theorem exists_error_iff : (∃ tag, ofGraph g n = .error tag) ↔
    ∃ e ∈ g.edges, ∃ a ∈ e.kind.headers, ¬ n.isHeader a := by
  constructor
  · rintro ⟨tag, h⟩
    obtain ⟨e, he, -, hnamed, hstray⟩ := ofGraph_eq_error hn h
    exact ⟨e, he, tag.header, hnamed, hstray⟩
  · rintro ⟨e, he, a, ha, hno⟩
    cases h : ofGraph g n with
    | error tag => exact ⟨tag, rfl⟩
    | ok p => exact absurd (isHeader_of_ofGraph hn h he ha) hno

/-! ## Headers around a header -/

/-- The headers around a header are its parent and the headers around that. -/
theorem ancestors_cases {h : LoopHeader} (hh : n.header? h.id = some h) :
    h.parent = none ∧ h.ancestors = [] ∨ ∃ d, n.header? d.id = some d ∧
      h.parent = some d.id ∧ h.ancestors = d.id :: d.ancestors ∧ h.level = d.level + 1 := by
  obtain ⟨-, hanc, hlevel, -⟩ := hn.header_eq hh
  have hup : h.parent = (LoopNest.parentsIn g t).lookup h.id := by
    rw [← hn.parent?_eq, LoopNest.parent?_of_header? hh]
  cases hpar : h.parent with
  | none =>
    rw [hpar] at hup
    exact .inl ⟨rfl, hanc.trans (ancestorsIn_of_lookup_none hup.symm _)⟩
  | some q =>
    rw [hpar] at hup
    have hq : n.isHeader q :=
      hn.isHeader_of_parent? ((LoopNest.parent?_of_header? hh).trans hpar)
    obtain ⟨d, hd⟩ := Option.isSome_iff_exists.1 hq
    obtain rfl := LoopNest.id_of_header? hd
    obtain ⟨-, hdanc, hdlevel, -⟩ := hn.header_eq hd
    have hcons : h.ancestors = d.id :: d.ancestors := by
      rw [hanc, hdanc, ancestorsIn_of_up (LoopNest.ranked_parentsIn hn.toSpanning) hup.symm]
    exact .inr ⟨d, hd, rfl, hcons, by rw [hlevel, hdlevel, hcons, List.length_cons]⟩

/-- What is listed around a header are headers of levels that are not deeper. -/
theorem exists_header_of_mem_ancestors {h : LoopHeader} (hh : n.header? h.id = some h) {a : Nat}
    (ha : a ∈ h.id :: h.ancestors) :
    ∃ d, n.header? d.id = some d ∧ d.id = a ∧ d.level ≤ h.level := by
  induction hl : h.ancestors generalizing h with
  | nil =>
    rw [hl] at ha
    exact ⟨h, hh, (List.mem_singleton.1 ha).symm, Nat.le_refl _⟩
  | cons q around ih =>
    rcases List.mem_cons.1 ha with rfl | ha
    · exact ⟨h, hh, rfl, Nat.le_refl _⟩
    · rcases ancestors_cases hn hh with ⟨-, hanc⟩ | ⟨d, hd, -, hanc, hlevel⟩
      · rw [hanc] at hl
        cases hl
      · rw [hanc] at ha hl
        obtain ⟨d', hd', rfl, hle⟩ := ih hd ha (List.cons.inj hl).2
        exact ⟨d', hd', rfl, Nat.le_trans hle (hlevel ▸ Nat.le_succ _)⟩

/-- The parent of a header, or of one around it, is around it. -/
theorem parent?_mem_ancestors {h : LoopHeader} (hh : n.header? h.id = some h) {a parent : Nat}
    (ha : a ∈ h.id :: h.ancestors) (hparent : n.parent? a = some parent) :
    parent ∈ h.ancestors := by
  induction hl : h.ancestors generalizing h with
  | nil =>
    rw [hl] at ha
    rw [List.mem_singleton.1 ha, LoopNest.parent?_of_header? hh] at hparent
    rcases ancestors_cases hn hh with ⟨hnone, -⟩ | ⟨d, -, -, hanc, -⟩
    · rw [hnone] at hparent
      cases hparent
    · rw [hl] at hanc
      cases hanc
  | cons q around ih =>
    rcases ancestors_cases hn hh with ⟨-, hanc⟩ | ⟨d, hd, hpar, hanc, -⟩
    · rw [hl] at hanc
      cases hanc
    · rw [hl] at hanc ha
      cases hanc
      rcases List.mem_cons.1 ha with rfl | ha
      · rw [LoopNest.parent?_of_header? hh, hpar] at hparent
        cases hparent
        exact List.mem_cons_self
      · exact List.mem_cons_of_mem _ (ih hd ha rfl)

/-- A header around another one has a smaller level. -/
theorem exists_level_lt_of_mem_ancestors {h : LoopHeader} (hh : n.header? h.id = some h) {a : Nat}
    (ha : a ∈ h.ancestors) : ∃ level, n.level a = .ok level ∧ level < h.level := by
  rcases ancestors_cases hn hh with ⟨-, hanc⟩ | ⟨d, hd, -, hanc, hlevel⟩
  · rw [hanc] at ha
    exact absurd ha List.not_mem_nil
  · rw [hanc] at ha
    obtain ⟨d', hd', rfl, hle⟩ := exists_header_of_mem_ancestors hn hd ha
    exact ⟨d'.level, LoopNest.level_of_header? hd', by omega⟩

omit hn in
/-- A header is listed with itself and what is around its parent. -/
theorem ancestorsOf_startStep (p : LoopPartition) (h : LoopHeader) (k : Nat) :
    (startStep p h).ancestorsOf k =
      if k = h.id then h.id :: h.parent.elim [] p.ancestorsOf else p.ancestorsOf k := by
  rw [ancestorsOf, startStep, NatMap.get?_insert]
  split
  · rw [Option.getD_some]
    cases h.parent <;> rfl
  · rfl

omit hn in
/-- A header of an outer level comes first. -/
theorem mem_of_level_lt {done hs : List LoopHeader} {d h : LoopHeader}
    (heq : n.headersOutward = done ++ h :: hs) (hd : d ∈ n.headersOutward)
    (hlevel : d.level < h.level) : d ∈ done := by
  have hsorted : n.headersOutward.Pairwise fun a b => a.level ≤ b.level :=
    LoopNest.pairwise_headers Nat.le_refl List.pairwise_le_range
  rw [heq] at hd hsorted
  obtain ⟨-, hlater, -⟩ := List.pairwise_append.1 hsorted
  refine (List.mem_append.1 hd).resolve_right fun hd => ?_
  rcases List.mem_cons.1 hd with rfl | hd
  · exact absurd hlevel (Nat.lt_irrefl _)
  · exact absurd hlevel (Nat.not_lt.2 ((List.pairwise_cons.1 hlater).1 d hd))

theorem ancestorsOf_start {h : LoopHeader} (hh : n.header? h.id = some h) :
    (start n).ancestorsOf h.id = h.id :: h.ancestors := by
  -- what has been entered for a header stays, and its parent has been entered before it
  have hfold : ∀ (hs done : List LoopHeader) (p : LoopPartition), n.headersOutward = done ++ hs →
      (∀ d ∈ done, p.ancestorsOf d.id = d.id :: d.ancestors) →
      ∀ d ∈ n.headersOutward, (hs.foldl startStep p).ancestorsOf d.id = d.id :: d.ancestors := by
    intro hs
    induction hs with
    | nil =>
      intro done p heq hdone d hd
      rw [heq, List.append_nil] at hd
      exact hdone d hd
    | cons h hs ih =>
      intro done p heq hdone
      have hnext : n.headersOutward = (done ++ [h]) ++ hs := by rw [heq, List.append_assoc]; rfl
      refine ih (done ++ [h]) (startStep p h) hnext fun d hd => ?_
      rw [ancestorsOf_startStep]
      split
      · next hid =>
        have hmem : ∀ d ∈ done ++ [h], n.header? d.id = some d := fun d hd =>
          hn.mem_headersOutward.1 (hnext ▸ List.mem_append_left hs hd)
        have hhead := hmem h (List.mem_append_right _ (List.mem_singleton_self h))
        obtain rfl : d = h := Option.some.inj ((hmem d hd).symm.trans (hid ▸ hhead))
        rcases ancestors_cases hn hhead with ⟨hpar, hanc⟩ | ⟨q, hq, hpar, hanc, hlevel⟩
        · rw [hpar, hanc]
          rfl
        · have hqdone := mem_of_level_lt heq (hn.mem_headersOutward.2 hq)
            (hlevel ▸ Nat.lt_succ_self _)
          rw [hpar, hanc, Option.elim_some, hdone q hqdone]
      · next hid =>
        refine hdone d ((List.mem_append.1 hd).resolve_right fun hd => hid ?_)
        rw [List.mem_singleton.1 hd]
  exact hfold n.headersOutward [] _ rfl (fun d hd => absurd hd List.not_mem_nil) h
    (hn.mem_headersOutward.2 hh)

/-- Around a header are itself and its ancestors, from the inside out. -/
theorem ancestorsOf_eq (hp : ofGraph g n = .ok p) {h : LoopHeader} (hh : n.header? h.id = some h) :
    p.ancestorsOf h.id = h.id :: h.ancestors := by
  rw [ancestorsOf, (sorts_of_ofGraph hn.wellFormed hp).2]
  exact ancestorsOf_start hn hh

theorem ancestorsOf_start_eq_nil {k : Nat} (hk : ¬ n.isHeader k) :
    (start n).ancestorsOf k = [] := by
  rw [start_eq]
  refine List.foldlRecOn (motive := fun p => p.ancestorsOf k = []) n.headersOutward startStep ?_ ?_
  · rfl
  · intro p hp h hh
    have hid : k ≠ h.id := by
      rintro rfl
      exact hk (Option.isSome_of_eq_some (hn.mem_headersOutward.1 hh))
    rw [ancestorsOf_startStep, if_neg hid]
    exact hp

end start

/-- The loop of a header but the root has a parent, whose level lies above that of each loop in
it. -/
theorem exists_parent_of_mem_ancestors {g : FlowGraph} {t : DepthFirstTree}
    (hn : LoopNest.Found g t n) {h : LoopHeader} (hh : n.header? h.id = some h) {a : Nat}
    (ha : a ∈ h.id :: h.ancestors) (hne : a ≠ t.root) :
    ∃ parent level, n.parent? a = some parent ∧ n.level parent = .ok level ∧ level < h.level := by
  obtain ⟨d, hd, rfl, hle⟩ := exists_header_of_mem_ancestors hn.toFoundFrom hh ha
  obtain ⟨parent, hparent⟩ := hn.exists_parent? (Option.isSome_of_eq_some hd) hne
  obtain ⟨level, hlevel, heq⟩ := hn.level_eq_succ hparent (LoopNest.level_of_header? hd)
  exact ⟨parent, level, hparent, hlevel, by omega⟩

/-! ## What sorting says -/

/-- The partition has the lists of the headers of the nest: the edges whose roles name a header, in
the order of the vertices and of the edges that leave them, and the headers around it. -/
structure Sorting (g : FlowGraph) (n : LoopNest) (p : LoopPartition) : Prop where
  all : g.edgesByVertex.Perm g.edges
  lists : Sorts g.edgesByVertex p
  once : ∀ h, (p.backOf h).Nodup ∧ (p.entryOf h).Nodup ∧ (p.exitOf h).Nodup
  ancestors : ∀ h header, n.header? h = some header → p.ancestorsOf h = h :: header.ancestors
  other : ∀ h, ¬ n.isHeader h →
    p.backOf h = [] ∧ p.entryOf h = [] ∧ p.exitOf h = [] ∧ p.ancestorsOf h = []

theorem mem_headers_of_role {h : Nat} (hr : e.iterates h ∨ e.enters h ∨ e.leaves h) :
    h ∈ e.kind.headers := by
  rcases hr with hr | hr | hr
  · obtain ⟨headers, hk, hh⟩ := Edge.iterates_iff.1 hr
    rw [hk]
    exact hh
  · rw [Edge.enters_iff.1 hr]
    exact List.mem_singleton_self h
  · rw [Edge.leaves_iff.1 hr]
    exact List.mem_singleton_self h

/-- The partition of a graph is the sorting of its edges by role and header. -/
theorem sorting_of_ofGraph {g : FlowGraph} {t : DepthFirstTree} (hn : LoopNest.FoundFrom g t n)
    (hp : ofGraph g n = .ok p) : Sorting g n p := by
  obtain ⟨hsorts, hanc⟩ := sorts_of_ofGraph hn.wellFormed hp
  have hperm := hn.wellFormed.edgesByVertex_perm
  refine ⟨hperm, hsorts, fun h => ?_, fun h header hh => ?_, fun h hno => ?_⟩
  · have hids : (g.edgesByVertex.map (·.id)).Nodup :=
      (hperm.map _).nodup_iff.2 hn.wellFormed.edgeIds_nodup
    have honce : ∀ q : Edge → Bool, ((g.edgesByVertex.filter q).map (·.id)).Nodup := fun q =>
      (List.filter_sublist.map _).nodup hids
    rw [hsorts.back, hsorts.entry, hsorts.exit]
    exact ⟨honce _, honce _, honce _⟩
  · obtain rfl := LoopNest.id_of_header? hh
    exact ancestorsOf_eq hn hp hh
  · have hnone : ∀ q : Edge → Bool, (∀ e, q e → h ∈ e.kind.headers) →
        (g.edgesByVertex.filter q).map (·.id) = [] := by
      intro q hq
      rw [List.map_eq_nil_iff, List.filter_eq_nil_iff]
      intro e he hqe
      exact hno (isHeader_of_ofGraph hn hp (hperm.mem_iff.1 he) (hq e hqe))
    rw [hsorts.back, hsorts.entry, hsorts.exit, ancestorsOf, hanc]
    exact ⟨hnone _ fun e hr => mem_headers_of_role (.inl hr),
      hnone _ fun e hr => mem_headers_of_role (.inr (.inl hr)),
      hnone _ fun e hr => mem_headers_of_role (.inr (.inr hr)), ancestorsOf_start_eq_nil hn hno⟩

/-- **Loop edges by header.** For a graph with any roles and a loop nest of it, found from any root:
when the edges can be sorted, each header has exactly the edges whose roles name it, and the headers
around it; they cannot be sorted exactly if a role names a vertex that is no header, and then the
complaint is about the first such edge and the smallest such vertex of its role. -/
theorem ofGraph_sorts_or_names_stray {g : FlowGraph} (hg : g.Built) {root : Nat}
    {t : DepthFirstTree} {n : LoopNest} (ht : DepthFirstTree.search g root = .ok t)
    (hn : LoopNest.ofDepthFirst g t = .ok n) :
    (∀ p, ofGraph g n = .ok p → Sorting g n p) ∧
      ((∃ tag, ofGraph g n = .error tag) ↔ ∃ e ∈ g.edges, ∃ a ∈ e.kind.headers, ¬ n.isHeader a) ∧
      ∀ tag, ofGraph g n = .error tag → ∃ before e after, g.edgesByVertex = before ++ e :: after ∧
        (∀ d ∈ before, ∀ a ∈ d.kind.headers, n.isHeader a) ∧ tag.IsLeast n e := by
  have hfound := LoopNest.foundFrom_of_ofDepthFirst hg.wellFormed ht hn
  exact ⟨fun p hp => sorting_of_ofGraph hfound hp, exists_error_iff hfound,
    fun tag h => exists_first_stray hfound h⟩

end LoopPartition

namespace Sample

/-- A loop around 2 and 3 in a way from 1 to 4 and back, with the roles of its edges written down.
The edge from 2 to 3 is of the given kind. -/
def labelled (kind : EdgeKind) : GraphSpec where
  name := "labelled"
  vertices := [1, 2, 3, 4]
  edges := numbered
    [(4, 1, .iteration [1]), (3, 2, .iteration [2]), (1, 2, .entry 2), (2, 3, kind),
      (2, 4, .exit 2)]
  entry? := some 1

def labelledGraph (kind : EdgeKind) : FlowGraph :=
  (labelled kind).build.toOption.getD (.empty "labelled")

theorem built_labelledGraph {kind : EdgeKind} (hk : kind.Ascending) :
    (labelledGraph kind).Built := by
  have hbuild : (labelled kind).build = .ok (labelledGraph kind) := rfl
  refine GraphSpec.built_of_build ?_ hbuild
  simp only [labelled, numbered, List.zipIdx_cons, List.zipIdx_nil, List.map_cons, List.map_nil,
    List.forall_mem_cons]
  exact ⟨List.pairwise_singleton _ _, List.pairwise_singleton _ _, trivial, hk, trivial,
    fun e he => absurd he List.not_mem_nil⟩

end Sample

open Sample in
/-- The edges of the sample can be sorted. When the edge from 2 to 3 is said to iterate 1, 3 and 4,
it is refused for 3, the smallest of them that is no header. -/
theorem LoopPartition.ofGraph_sorts_or_names_stray_labelledGraph :
    (labelledGraph .trace).Built ∧ (labelledGraph (.iteration [1, 3, 4])).Built ∧
      (∃ t n p, DepthFirstTree.search (labelledGraph .trace) 1 = .ok t ∧
        LoopNest.ofDepthFirst (labelledGraph .trace) t = .ok n ∧
        ofGraph (labelledGraph .trace) n = .ok p ∧ p.entryOf 2 = [3] ∧ p.ancestorsOf 2 = [2, 1] ∧
        Sorting (labelledGraph .trace) n p) ∧
      ∃ t n, DepthFirstTree.search (labelledGraph (.iteration [1, 3, 4])) 1 = .ok t ∧
        LoopNest.ofDepthFirst (labelledGraph (.iteration [1, 3, 4])) t = .ok n ∧
        ofGraph (labelledGraph (.iteration [1, 3, 4])) n = .error ⟨4, 3⟩ ∧
        ∃ before e after,
          (labelledGraph (.iteration [1, 3, 4])).edgesByVertex = before ++ e :: after ∧
          (∀ d ∈ before, ∀ a ∈ d.kind.headers, n.isHeader a) ∧ StrayTag.IsLeast n e ⟨4, 3⟩ := by
  have hbuilt : (labelledGraph .trace).Built := built_labelledGraph trivial
  have hbuilt' : (labelledGraph (.iteration [1, 3, 4])).Built :=
    built_labelledGraph (show [1, 3, 4].Pairwise (· < ·) by decide)
  refine ⟨hbuilt, hbuilt', ⟨_, _, _, rfl, rfl, rfl, rfl, rfl, ?_⟩, _, _, rfl, rfl, rfl, ?_⟩
  · have ht : DepthFirstTree.search (labelledGraph .trace) 1 = _ := rfl
    exact (ofGraph_sorts_or_names_stray hbuilt ht rfl).1 _ rfl
  · have ht : DepthFirstTree.search (labelledGraph (.iteration [1, 3, 4])) 1 = _ := rfl
    exact (ofGraph_sorts_or_names_stray hbuilt' ht rfl).2.2 _ rfl

end WorstCase
