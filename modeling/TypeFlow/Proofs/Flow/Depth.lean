import TypeFlow.Proofs.Flow.Leaves
import TypeFlow.Proofs.Flow.Firing
import TypeFlow.Proofs.Flow.Seeding
import TypeFlow.Proofs.Graph.Reach
import TypeFlow.Proofs.Graph.Records
import TypeFlow.Proofs.TypeSet.Universe
/-!
# How deep containers nest

Only collection literals build deeper leaves, and each of them does so once: when its elements
first all yield something (`ready`). From then on what it makes moves up towards the bare
container (`refines_containerOf`). So the depth of all leaves is bounded by `level`, the size of
the graph and one more for each ready literal, throughout a run (`bounded_of_fires`).
-/

namespace TypeFlow

open TypeSet

/-! ## The classes that a graph mentions -/

namespace Graph

variable {g : Graph} {n m : NodeId}

/-- The nodes at the other end of some edge. -/
def mentioned (g : Graph) : Finset NodeId :=
  (g.nodes.toList.flatMap fun n => (n.outgoing ++ n.incoming).map Edge.node).toFinset

theorem mem_mentioned {e : Edge} (h : e ∈ g.outgoing n ∨ e ∈ g.incoming n) :
    e.node ∈ g.mentioned := by
  have hnode : g.node n ∈ g.nodes.toList := by
    by_contra hno
    have hdefault : g.node n = default := by
      simp only [node, Array.getD_eq_getD_getElem?] at hno ⊢
      cases hn : g.nodes[n.index]? with
      | none => rfl
      | some a =>
        rw [hn, Option.getD_some] at hno
        exact absurd (Array.mem_toList_iff.2 (Array.mem_of_getElem? hn)) hno
    rw [outgoing, incoming, hdefault] at h
    rcases h with h | h <;> cases h
  simp only [mentioned, List.mem_toFinset, List.mem_flatMap, List.mem_map, List.mem_append]
  exact ⟨g.node n, hnode, e, h, rfl⟩

theorem mem_mentioned_of_child? {r : Role} (h : g.child? n r = some m) : m ∈ g.mentioned := by
  obtain ⟨e, he, rfl⟩ := Option.map_eq_some_iff.1 h
  exact mem_mentioned (Or.inl (List.mem_of_find?_eq_some he))

theorem mem_mentioned_of_enclosing? {k : DeclKind} (h : Flow.enclosing? g n k = some m) :
    m ∈ g.mentioned := by
  have hparents : ∀ k, k = n ∨ k ∈ g.mentioned → ∀ p ∈ g.parents k, p = n ∨ p ∈ g.mentioned := by
    intro k _ p hp
    obtain ⟨e, he, rfl⟩ := List.mem_map.1 hp
    exact Or.inr (mem_mentioned (Or.inr (List.mem_filter.1 he).1))
  obtain ⟨hm, hne, -⟩ := nearestAncestor?_sound hparents (Or.inl rfl) h
  exact hm.resolve_left hne

end Graph

/-! ## Literals -/

namespace Flow

variable {g : Graph} {t t' : BoundsTable} {n : NodeId}

theorem stem?_eq {a : TypeSet} (hu : a ≠ .univ) : a.stem? = commonStem a.leaves := by
  cases a <;> first | exact absurd rfl hu | rfl

/-- A literal of more makes a container that is no more special. -/
theorem refines_containerOf {a a' : TypeSet} (ha : a.Canonical) (hne : a ≠ .empty)
    (h : a.Within a') (b : BaseType) : Refines (containerOf b a) (containerOf b a') := by
  have hbare : ∀ a : TypeSet, Refines (containerOf b a) (.base b) := by
    intro a
    unfold containerOf
    split
    · exact .bare b _
    · exact .refl _
  cases hs : a'.stem? with
  | none =>
    have hcontainer : containerOf b a' = .base b := by simp [containerOf, hs]
    rw [hcontainer]
    exact hbare a
  | some s' =>
    have hu' : a' ≠ .univ := by
      rintro rfl
      cases hs
    obtain ⟨hu, hwithin⟩ := h.resolve_left hu'
    rw [stem?_eq hu'] at hs
    have hbelow : ∀ x ∈ a.leaves, ∃ y ∈ a'.leaves, Refines x y := fun x hx =>
      (hwithin x hx).resolve_left hu'
    have hleaves : a.leaves ≠ [] := fun hnil => hne (ha.leaves_eq_nil.1 hnil)
    obtain ⟨s, hs', hrefines⟩ := commonStem_of_below hleaves hbelow hs
    simp only [containerOf, stem?_eq hu, stem?_eq hu', hs, hs']
    exact .arg b hrefines

/-- Whether a node is a collection literal all of whose elements yield something. -/
def ready (g : Graph) (t : BoundsTable) (n : NodeId) : Bool :=
  (literalContainer? (g.kind n)).isSome && (elements g n).all fun e => t.shown e ≠ .empty

/-- The set of a ready literal: the union of what its elements yield. -/
def elementUnion (g : Graph) (t : BoundsTable) (n : NodeId) : TypeSet :=
  ((elements g n).map t.shown).foldl TypeSet.union .empty

theorem ready_of_joinElements (ht : t.Sound) {b : BaseType} {joined : TypeSet}
    (hb : literalContainer? (g.kind n) = some b)
    (h : joinElements t .empty (elements g n) = .ok (some joined)) :
    ready g t n ∧ joined = elementUnion g t n := by
  rw [joinElements_eq ht.canonical_shown canonical_empty] at h
  have h := Except.ok.inj h
  split at h
  · cases h
  · next hall =>
    refine ⟨?_, (Option.some.inj h).symm⟩
    simp only [ready, hb, Option.isSome_some, Bool.true_and, List.all_eq_true, decide_eq_true_eq]
    exact fun e he hempty => hall ⟨e, he, hempty⟩

theorem joinElements_of_ready (ht : t.Sound) (h : ready g t n) :
    joinElements t .empty (elements g n) = .ok (some (elementUnion g t n)) := by
  rw [joinElements_eq ht.canonical_shown canonical_empty, if_neg]
  · rfl
  · rintro ⟨e, he, hempty⟩
    have hall := (Bool.and_eq_true_iff.1 h).2
    simpa [hempty] using List.all_eq_true.1 hall e he

theorem canonical_foldl_union {sets : List TypeSet} {sofar : TypeSet} (hs : sofar.Canonical)
    (h : ∀ a ∈ sets, a.Canonical) : (sets.foldl TypeSet.union sofar).Canonical :=
  (over_foldl_union (P := fun _ => True) ⟨hs, fun _ _ _ => trivial⟩
    fun a ha => ⟨h a ha, fun _ _ _ => trivial⟩).1

theorem canonical_elementUnion (ht : t.Sound) (n : NodeId) : (elementUnion g t n).Canonical := by
  refine canonical_foldl_union canonical_empty fun a ha => ?_
  obtain ⟨e, -, rfl⟩ := List.mem_map.1 ha
  exact ht.canonical_shown e

/-- A union of sets lies within what each of them lies in. -/
theorem foldl_union_within {c : TypeSet} : ∀ {sets : List TypeSet} {sofar : TypeSet},
    sofar.Canonical → (∀ a ∈ sets, a.Canonical) → sofar.Within c → (∀ a ∈ sets, a.Within c) →
      (sets.foldl TypeSet.union sofar).Within c
  | [], _, _, _, hsc, _ => hsc
  | x :: xs, sofar, hs, hxs, hsc, hxc => by
    have hx := hxs x List.mem_cons_self
    rw [List.foldl_cons]
    exact foldl_union_within (canonical_union hs hx) (fun a ha => hxs a (List.mem_cons_of_mem _ ha))
      (union_within hs hx hsc (hxc x List.mem_cons_self))
      fun a ha => hxc a (List.mem_cons_of_mem _ ha)

/-- Every operand is part of a union of many. -/
theorem sub_foldl_union : ∀ {sets : List TypeSet} {sofar : TypeSet},
    sofar.Canonical → (∀ a ∈ sets, a.Canonical) → ∀ a, a = sofar ∨ a ∈ sets →
      a.Sub (sets.foldl TypeSet.union sofar)
  | [], _, _, _, a, ha => by
    obtain rfl := ha.resolve_right (by simp)
    exact Sub.refl _
  | x :: xs, sofar, hs, hxs, a, ha => by
    have hx := hxs x List.mem_cons_self
    have hrest : ∀ b, b = sofar.union x ∨ b ∈ xs → b.Sub (xs.foldl TypeSet.union (sofar.union x)) :=
      sub_foldl_union (canonical_union hs hx) fun b hb => hxs b (List.mem_cons_of_mem _ hb)
    rcases ha with rfl | ha
    · exact (sub_union_left hs hx).trans (hrest _ (Or.inl rfl))
    · rcases List.mem_cons.1 ha with rfl | ha
      · exact (sub_union_right hs hx).trans (hrest _ (Or.inl rfl))
      · exact hrest a (Or.inr ha)

/-- Where elements yield more, so does their union. -/
theorem elementUnion_within (ht : t.Sound) (ht' : t'.Sound)
    (h : ∀ e ∈ elements g n, (t.shown e).Within (t'.shown e)) :
    (elementUnion g t n).Within (elementUnion g t' n) := by
  have hcanonical : ∀ {t : BoundsTable}, t.Sound →
      ∀ a ∈ (elements g n).map t.shown, a.Canonical := by
    intro t ht a ha
    obtain ⟨e, -, rfl⟩ := List.mem_map.1 ha
    exact ht.canonical_shown e
  refine foldl_union_within canonical_empty (hcanonical ht) (empty_within _) fun a ha => ?_
  obtain ⟨e, he, rfl⟩ := List.mem_map.1 ha
  exact (h e he).trans (sub_foldl_union canonical_empty (hcanonical ht') _
    (Or.inr (List.mem_map_of_mem he))).within

/-- Elements that yield something have a union that is not empty. -/
theorem elementUnion_ne_empty (ht : t.Sound) (hready : ready g t n) (hne : elements g n ≠ []) :
    elementUnion g t n ≠ .empty := by
  intro hempty
  obtain ⟨e, es, hes⟩ := List.exists_cons_of_ne_nil hne
  have he : e ∈ elements g n := by simp [hes]
  have hshown : t.shown e ≠ .empty := by
    have hall := (Bool.and_eq_true_iff.1 hready).2
    simpa using List.all_eq_true.1 hall e he
  have hsub : (t.shown e).Sub (elementUnion g t n) := by
    refine sub_foldl_union canonical_empty (fun a ha => ?_) _ (Or.inr (List.mem_map_of_mem he))
    obtain ⟨e', -, rfl⟩ := List.mem_map.1 ha
    exact ht.canonical_shown e'
  rw [hempty] at hsub
  exact hshown (sub_empty (ht.canonical_shown e) hsub)

/-- What a ready literal makes only moves up while its elements yield more. -/
theorem refines_container (ht : t.Sound) (ht' : t'.Sound) (hready : ready g t n)
    (h : ∀ e ∈ elements g n, (t.shown e).Within (t'.shown e)) (b : BaseType) :
    Refines (containerOf b (elementUnion g t n)) (containerOf b (elementUnion g t' n)) := by
  by_cases hne : elements g n = []
  · simp only [elementUnion, hne, List.map_nil, List.foldl_nil]
    exact .refl _
  · exact refines_containerOf (canonical_elementUnion ht n) (elementUnion_ne_empty ht hready hne)
      (elementUnion_within ht ht' h) b

/-! ## Levels -/

/-- A bound for the depth of leaves: the size of the graph, and one more for each ready literal. -/
def level (g : Graph) (t : BoundsTable) : Nat :=
  g.size + 1 + (List.range g.size).countP fun i => ready g t ⟨i⟩

/-- The leaves at a level, over the classes that the graph mentions. -/
def AtLevel (g : Graph) (k : Nat) (x : TypeSet) : Prop := x ∈ leavesUpTo g.mentioned k

theorem level_le (g : Graph) (t : BoundsTable) : level g t ≤ 2 * g.size + 1 := by
  have hle := List.countP_le_length (p := fun i => ready g t ⟨i⟩) (l := List.range g.size)
  rw [List.length_range] at hle
  unfold level
  omega

theorem over_annotationSet_atLevel {k : Nat} (hk : g.size + 1 ≤ k) {a : TypeSet}
    (h : g.annotationSet n = .ok a) : TypeSet.Over (AtLevel g k) a := by
  have hover := over_annotationOver (S := fun _ => True) (P := AtLevel g) (fun _ _ _ _ => trivial)
    (fun _ b => base_mem_leavesUpTo b)
    (fun _ _ _ _ _ h => cls_mem_leavesUpTo.2 (Graph.mem_mentioned_of_child? h))
    (fun _ _ _ h => arged_mem_leavesUpTo.2 h) trivial h
  exact hover.mono fun x hx => leavesUpTo_mono hk hx

/-- The leaves at a level are a closed family, at all sites. -/
theorem leafFamily_atLevel (g : Graph) {k : Nat} (hk : g.size + 1 ≤ k) :
    LeafFamily g (fun _ => True) (AtLevel g k) where
  base b := leavesUpTo_mono hk (base_mem_leavesUpTo b)
  arg b x h := by
    cases k with
    | zero => omega
    | succ k => exact leavesUpTo_succ (arged_mem_leavesUpTo.1 h)
  created _ _ _ _ h := leavesUpTo_mono hk (cls_mem_leavesUpTo.2 (Graph.mem_mentioned_of_child? h))
  enclosing _ _ _ h :=
    leavesUpTo_mono hk (cls_mem_leavesUpTo.2 (Graph.mem_mentioned_of_enclosing? h))
  declared _ _ _ _ _ h := over_annotationSet_atLevel hk h
  returned _ _ _ _ _ h := over_annotationSet_atLevel hk h
  called _ _ _ _ _ := trivial
  parent _ _ _ _ := trivial
  member _ _ _ _ := trivial

theorem lt_size_of_ready (h : ready g t n) : n.index < g.size := by
  by_contra hn
  have hhas : g.has n = false := by simpa [Graph.has] using hn
  have hkind : literalContainer? (g.kind n) = none := by
    rw [Graph.kind, Graph.node_of_not_has hhas]
    rfl
  simp [ready, hkind] at h

/-- Literals stay ready while nodes yield more. -/
theorem ready_mono (ht : t.Sound) (h : ∀ m, (t.shown m).Within (t'.shown m)) (hr : ready g t n) :
    ready g t' n := by
  simp only [ready, Bool.and_eq_true, List.all_eq_true, decide_eq_true_eq] at hr ⊢
  refine ⟨hr.1, fun e he hempty => hr.2 e he ?_⟩
  have hwithin := h e
  rw [hempty] at hwithin
  exact within_empty (ht.canonical_shown e) hwithin

theorem level_mono (ht : t.Sound) (h : ∀ m, (t.shown m).Sub (t'.shown m)) :
    level g t ≤ level g t' := by
  have hcount := List.countP_mono_left (l := List.range g.size)
    (p := fun i => ready g t ⟨i⟩) (q := fun i => ready g t' ⟨i⟩) fun i _ hi =>
      ready_mono ht (fun m => (h m).within) hi
  unfold level
  omega

/-- A literal that becomes ready raises the level. -/
theorem level_lt (ht : t.Sound) (h : ∀ m, (t.shown m).Sub (t'.shown m)) (hr : ready g t n = false)
    (hr' : ready g t' n) : level g t < level g t' := by
  have hmem : n.index ∈ List.range g.size := List.mem_range.2 (lt_size_of_ready hr')
  have hcount : (List.range g.size).countP (fun i => ready g t ⟨i⟩) <
      (List.range g.size).countP fun i => ready g t' ⟨i⟩ := by
    obtain ⟨as, bs, hsplit⟩ := List.append_of_mem hmem
    have hle : ∀ l : List Nat,
        l.countP (fun i => ready g t ⟨i⟩) ≤ l.countP fun i => ready g t' ⟨i⟩ :=
      fun l => List.countP_mono_left fun i _ hi => ready_mono ht (fun m => (h m).within) hi
    have h1 := hle as
    have h2 := hle bs
    simp only [hsplit, List.countP_append, List.countP_cons, hr, hr', if_true]
    simp
    omega
  unfold level
  omega

/-! ## The invariant -/

/-- All leaves, and those that ready literals are about to add, lie at the level of the table. -/
structure Bounded (g : Graph) (t : BoundsTable) : Prop where
  sound : t.Sound
  leaves : t.Over (AtLevel g (level g t))
  literals : LiteralsOver g (AtLevel g (level g t)) t

theorem isContainer_of_literalContainer? {k : NodeKind} {b : BaseType}
    (h : literalContainer? k = some b) : b.isContainer := by
  unfold literalContainer? at h
  split at h <;> first | cases h; rfl | cases h

/-- What a literal makes is a leaf: a container of the stem of a canonical set, or a bare one. -/
theorem containerOf_eq {a : TypeSet} (ha : a.Canonical) (b : BaseType) :
    containerOf b a = .base b ∨ ∃ s, containerOf b a = .arged b s ∧ a ≠ .univ ∧ Proper s ∧
      ∃ x ∈ a.leaves, Refines x s := by
  cases hs : a.stem? with
  | none => exact Or.inl (by simp [containerOf, hs])
  | some s =>
    have hu : a ≠ .univ := by
      rintro rfl
      cases hs
    have hstem := hs
    rw [stem?_eq hu] at hstem
    obtain ⟨x, hx⟩ : ∃ x, x ∈ a.leaves := by
      cases hleaves : a.leaves with
      | nil =>
        rw [hleaves] at hstem
        cases hstem
      | cons x xs => exact ⟨x, by simp⟩
    have hxs := refines_commonStem hstem x hx
    exact Or.inr ⟨s, by simp [containerOf, hs], hu, (ha.proper hu hx).of_refines hxs, x, hx, hxs⟩

theorem proper_containerOf {a : TypeSet} {b : BaseType} (hb : b.isContainer) (ha : a.Canonical) :
    Proper (containerOf b a) := by
  rcases containerOf_eq ha b with h | ⟨s, h, -, hs, -⟩
  · rw [h]
    exact trivial
  · rw [h]
    exact ⟨hb, hs⟩

/-- A container of a set is one level deeper than the set. -/
theorem over_containerOf {k : Nat} {a : TypeSet} {b : BaseType} (hb : b.isContainer)
    (ha : TypeSet.Over (AtLevel g k) a) : TypeSet.Over (AtLevel g (k + 1)) (containerOf b a) := by
  refine Proper.over (proper_containerOf hb ha.1) ?_
  rcases containerOf_eq ha.1 b with h | ⟨s, h, hu, -, x, hx, hxs⟩
  · rw [h]
    exact base_mem_leavesUpTo b
  · rw [h]
    exact arged_mem_leavesUpTo.2 (mem_leavesUpTo_of_refines hxs (ha.2 hu x hx))

theorem over_elementUnion {P : TypeSet → Prop} (ht : t.Over P) (n : NodeId) :
    TypeSet.Over P (elementUnion g t n) := by
  refine over_foldl_union over_empty fun a ha => ?_
  obtain ⟨e, -, rfl⟩ := List.mem_map.1 ha
  exact ht.shown e

/-- A table without nested literals is bounded. -/
theorem bounded_of_over (ht : t.Sound) (hover : t.Over (AtLevel g (g.size + 1))) :
    Bounded g t where
  sound := ht
  leaves := hover.mono fun x hx => leavesUpTo_mono (by unfold level; omega) hx
  literals n b joined hb hjoined := by
    obtain ⟨hready, rfl⟩ := ready_of_joinElements ht hb hjoined
    have hpos : 0 < (List.range g.size).countP fun i => ready g t ⟨i⟩ :=
      List.countP_pos_iff.2 ⟨n.index, List.mem_range.2 (lt_size_of_ready hready), hready⟩
    exact (over_containerOf (isContainer_of_literalContainer? hb) (over_elementUnion hover n)).mono
      fun x hx => leavesUpTo_mono (by unfold level; omega) hx

/-- Where nodes yield more, over leaves of the level, the table stays bounded. -/
theorem Bounded.step (h : Bounded g t) (ht' : t'.Sound) (hgrow : ∀ m, (t.shown m).Sub (t'.shown m))
    (hover : t'.Over (AtLevel g (level g t))) : Bounded g t' where
  sound := ht'
  leaves := hover.mono fun x hx => leavesUpTo_mono (level_mono h.sound hgrow) hx
  literals n b joined hb hjoined := by
    obtain ⟨hready', rfl⟩ := ready_of_joinElements ht' hb hjoined
    have hcontainer := isContainer_of_literalContainer? hb
    cases hready : ready g t n with
    | true =>
      -- an old literal only moves up
      have hold := h.literals n b _ hb (joinElements_of_ready h.sound hready)
      have hp := proper_containerOf hcontainer (canonical_elementUnion (g := g) h.sound n)
      have hp' := proper_containerOf hcontainer (canonical_elementUnion (g := g) ht' n)
      have hup := refines_container h.sound ht' hready (fun e _ => (hgrow e).within) b
      have hmem : AtLevel g (level g t) (containerOf b (elementUnion g t n)) :=
        hold.2 hp.ne_univ _ (by simp [hp.leaves])
      exact Proper.over hp'
        (leavesUpTo_mono (level_mono h.sound hgrow) (mem_leavesUpTo_of_refines hup hmem))
    | false =>
      -- a new one raises the level
      exact (over_containerOf hcontainer (over_elementUnion hover n)).mono fun x hx =>
        leavesUpTo_mono (level_lt h.sound hgrow hready hready') hx

/-- Firings keep a table bounded. -/
theorem bounded_of_fires {methods : List NodeId} {r : FlowRule} (hr : r ∈ rules g methods)
    (h : Bounded g t) (hfires : Rule.Fires Flow.commit r.toRule n t t') : Bounded g t' := by
  have hfamily := leafFamily_atLevel g (k := level g t) (by unfold level; omega)
  have hover : ∀ requests, r.asks t n = .ok requests →
      RequestsOver (AtLevel g (level g t)) requests :=
    fun requests hasks => over_asks hfamily h.leaves h.literals trivial hr hasks
  have hcanonical : ∀ requests, r.asks t n = .ok requests → ∀ q ∈ requests, q.Canonical :=
    fun requests hasks q hq => (hover requests hasks q hq).1
  obtain ⟨ht', -, -⟩ := FlowRule.sound_of_fires h.sound hcanonical hfires
  obtain ⟨-, requests, hasks, -, rfl⟩ := FlowRule.eq_result_of_fires h.sound hcanonical hfires
  exact h.step ht'
    (Update.shown_sub_result h.sound (Update.fits_ofRequests h.sound (hcanonical _ hasks)))
    (h.leaves.result h.sound (hover requests hasks))

end Flow

end TypeFlow
