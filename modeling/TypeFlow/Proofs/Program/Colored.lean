import TypeFlow.Proofs.Coloring.Growth
import TypeFlow.Proofs.Flow.Shuffle
import TypeFlow.Proofs.Program.Annotation
/-!
# Programs with colors

What coloring adds to the graph of a program lies outside of the program: type nodes, and edges to
them that are no parts (`Graph.Colors`). Only classes become parts of something more, namely of the
containers of their objects. An upward search from inside a class comes to that class first, and
finds no other declaration behind it (`Colors.enclosing?_eq`). A program therefore reads as it did
before (`Colors.readsAs`), though its classes may have got further parents.
-/

namespace TypeFlow

open Program

namespace Graph

variable {g h : Graph} {root n m c : NodeId} {r : Role} {l : List NodeId}

/-! ## Searching upwards -/

/-- An upward search keeps what it met, and goes on to the parents of what waits, and so on. -/
theorem ascend_append {P : NodeId → Prop} {start : NodeId}
    (hP : ∀ n, P n → ∀ m ∈ g.parents n, P m) : ∀ (steps : Nat) (met queue : List NodeId),
      (∀ n ∈ queue, P n) → ∃ rest, g.ascend (.up start) steps met queue = met ++ rest ∧
        ∀ m ∈ rest, ∃ k, P k ∧ m ∈ g.parents k
  | 0, met, _, _ => ⟨[], by simp [ascend]⟩
  | _ + 1, met, [], _ => ⟨[], by simp [ascend]⟩
  | steps + 1, met, n :: queue, hqueue => by
    obtain ⟨hn, hqueue⟩ := List.forall_mem_cons.1 hqueue
    obtain ⟨rest, hrest, hall⟩ := ascend_append hP steps (met ++ unmet met (g.parents n))
      (queue ++ unmet met (g.parents n)) (forall_mem_append_unmet hqueue (hP n hn))
    refine ⟨unmet met (g.parents n) ++ rest, ?_, fun m hm => ?_⟩
    · rw [ascend_cons, above_up, hrest, List.append_assoc]
    · exact (List.mem_append.1 hm).elim (fun hm => ⟨n, hn, (mem_unmet.1 hm).1⟩) (hall m)

/-! ## What coloring leaves alone -/

/-- The second graph is the first one with colors: nodes keep their kinds, payloads and children in
other roles, and what is new are types. -/
structure Colors (g h : Graph) : Prop where
  kept : h.WellKept
  grown : Extends (· ≠ .colored) g h
  adds : AddsTypes g h

namespace Colors

variable (hs : Colors g h)

include hs

theorem mem_outgoing (hg : g.WellKept) (hn : g.has n) (hr : r ≠ .colored) :
    ⟨r, m⟩ ∈ h.outgoing n ↔ ⟨r, m⟩ ∈ g.outgoing n := by
  rw [← child?_eq_some hs.kept, ← child?_eq_some hg, hs.grown.child n r hn hr]

theorem name?_eq (hn : g.has n) : h.name? n = g.name? n := by
  rw [name?, name?, hs.grown.payload n hn]

/-- Edges that are not to colors stand in the same order by role. -/
theorem byRole_eq (hg : g.WellKept) (hn : g.has n) {p : Edge → Bool}
    (hp : ∀ e, p e → e.role ≠ .colored) :
    Edge.byRole ((h.outgoing n).filter p) = Edge.byRole ((g.outgoing n).filter p) := by
  have hroles : ∀ {k : Graph}, k.WellKept → (((k.outgoing n).filter p).map Edge.role).Nodup :=
    fun hk => (hk.unique n).sublist (List.filter_sublist.map _)
  refine Edge.byRole_eq_of_perm ?_ (hroles hs.kept)
  refine (List.perm_ext_iff_of_nodup (.of_map _ (hroles hs.kept)) (.of_map _ (hroles hg))).2 ?_
  rintro ⟨r, m⟩
  rw [List.mem_filter, List.mem_filter]
  exact and_congr_left fun hpe => hs.mem_outgoing hg hn (hp _ hpe)

theorem items_eq (hg : g.WellKept) (hn : g.has n) : h.items n = g.items n := by
  rw [items, items, itemEdges, itemEdges,
    hs.byRole_eq hg hn fun e he hc => by simp [hc, Role.isItem, Role.index?] at he]

theorem below_eq (hg : g.WellKept) (hn : g.has n) :
    h.below (.down root) n = g.below (.down root) n := by
  have hexpands : (Search.down root).expands n := by simp [Search.expands, Search.down]
  rw [below, below, if_pos hexpands, if_pos hexpands,
    hs.byRole_eq hg hn fun e he hc => by simp [Search.down, hc, Role.isStructural] at he]

/-- The same nodes lie below a root, and a search finds them in the same order. -/
theorem visits_eq (hg : g.Rooted root) : h.visits (.down root) = g.visits (.down root) := by
  have hwalk : Walk (h.below (.down root)) [] [root] (g.visits (.down root)) := by
    refine (walk_visits root).congr (P := g.Below root) (fun n hn m hm => ?_)
      (fun n hn => hs.below_eq hg.kept (hg.has_below hn)) fun n hn => ?_
    · obtain ⟨e, he, hr, rfl⟩ := mem_below_down.1 hm
      exact hn.child he hr
    · rw [List.mem_singleton.1 hn]
      exact .root
  exact (walk_visits root).functional hwalk

theorem below_iff (hg : g.Rooted root) : h.Below root n ↔ g.Below root n := by
  rw [← mem_visits_down, ← mem_visits_down, hs.visits_eq hg]

/-- A node is a part of what it was a part of, and of new nodes. -/
theorem mem_parents (hg : g.WellKept) (hm : m ∈ h.parents n) :
    (g.has n ∧ m ∈ g.parents n) ∨ g.has m = false := by
  obtain ⟨r, hr, he⟩ := (mem_parents_iff hs.kept).1 hm
  by_cases hhas : g.has m = true
  · have hc : r ≠ .colored := by
      rintro rfl
      cases hr
    have he' := (hs.mem_outgoing hg hhas hc).1 he
    exact Or.inl ⟨hg.has_target he', (mem_parents_iff hg).2 ⟨r, hr, he'⟩⟩
  · exact Or.inr (by simpa using hhas)

end Colors

end Graph

/-! ## Where classes stand -/

namespace Program

variable {g : Graph} {root n c : NodeId} {l : List NodeId}

/-- Only the program holds classes, and nothing holds the program. -/
theorem host_of_fits_class {k : NodeKind} {r : Role} (h : fits k r (.decl .classDecl)) :
    k = .decl .program := (heldBy_of_fits h).2

theorem not_fits_program {k : NodeKind} {r : Role} : ¬fits k r (.decl .program) := heldBy_of_fits

/-- Types are parts of declarations, statements and types, and have types alone as parts. -/
theorem category_of_fits_type {k : TypeKind} {r : Role} {k' : NodeKind} (h : fits (.type k) r k') :
    k'.category = .type := by
  cases k with
  | generic =>
    cases r with
    | base =>
      obtain ⟨b, rfl⟩ := exists_base_of_fits h
      rfl
    | arg => exact of_decide_eq_true h
    | _ => cases h
  | _ => cases r <;> cases h

/-- A class is a part of the program alone. -/
theorem Resolved.parents_class (hg : Resolved g root) (hc : g.Below root c)
    (hkind : g.kind c = .decl .classDecl) : g.parents c = [root] := by
  have hhost : ∀ {n e}, g.Below root n → e ∈ g.outgoing n → e.role.isStructural →
      g.kind n = .decl .program → n = root := by
    intro n e hn _ _ hprogram
    cases hn with
    | root => rfl
    | child hk he hr =>
      have hfits := hg.fits _ hk _ he hr
      rw [hprogram] at hfits
      exact absurd hfits not_fits_program
  cases hc with
  | root =>
    rw [hg.program] at hkind
    cases hkind
  | child hn he hr =>
    have hfits := hg.fits _ hn _ he hr
    rw [hkind] at hfits
    rw [hg.rooted.parents_eq hn he hr, hhost hn he hr (host_of_fits_class hfits)]

end Program

namespace Graph.Colors

variable {g h : Graph} {root n c : NodeId} {l : List NodeId}

/-- The way up from a node that is no class is the same, or leads to a class. -/
theorem climbs (hs : Colors g h) (hg : Resolved g root) (hl : Ancestors g n l)
    (hn : g.Below root n) (htype : (g.kind n).category ≠ .type)
    (hcls : g.kind n ≠ .decl .classDecl) : Ancestors h n l ∨
      ∃ l' c, l = l' ++ [c, root] ∧ Climbs h n (l' ++ [c]) c ∧ g.Below root c ∧
        g.kind c = .decl .classDecl := by
  induction hl with
  | top hnone =>
    exact Or.inl (.top ((hs.grown.parents _ (hg.has_below hn) htype hcls).trans hnone))
  | @step n m l hparent rest ih =>
    have hm : m ∈ g.parents n := by simp [hparent]
    have hbelow := hg.below_parent hn hm
    have hparents := (hs.grown.parents n (hg.has_below hn) htype hcls).trans hparent
    by_cases hmcls : g.kind m = .decl .classDecl
    · obtain rfl : l = [root] := by
        have hroot := hg.parents_class hbelow hmcls
        exact rest.functional (.step hroot (.top hg.top))
      exact Or.inr ⟨[], m, rfl, .step hparents (.here m), hbelow, hmcls⟩
    · have hmtype : (g.kind m).category ≠ .type := by
        intro hmtype
        obtain ⟨k, hk⟩ := exists_type_of_category hmtype
        obtain ⟨r, hr, he⟩ := (mem_parents_iff hg.kept).1 hm
        have hfits := hg.fits m hbelow _ he hr
        rw [hk] at hfits
        exact htype (category_of_fits_type hfits)
      rcases ih hbelow hmtype hmcls with hsame | ⟨l', c, rfl, hclimbs, hc⟩
      · exact Or.inl (.step hparents hsame)
      · exact Or.inr ⟨m :: l', c, rfl, .step hparents hclimbs, hc⟩

/-- Behind a class an upward search comes to the program and to new nodes only. -/
theorem rest_of_class (hs : Colors g h) (hg : Resolved g root) (hc : g.Below root c)
    (hkind : g.kind c = .decl .classDecl) (start : NodeId) (steps : Nat) (met : List NodeId) :
    ∃ rest, h.ascend (.up start) steps met [c] = met ++ rest ∧
      ∀ m ∈ rest, m = root ∨ (h.has m ∧ g.has m = false) := by
  have habove : ∀ k, k = c ∨ k = root ∨ g.has k = false → ∀ m ∈ h.parents k,
      m = root ∨ (h.has m ∧ g.has m = false) := by
    intro k hk m hm
    rcases hs.mem_parents hg.kept hm with ⟨hhas, hm⟩ | hnew
    · left
      rcases hk with rfl | rfl | hno
      · simpa [hg.parents_class hc hkind] using hm
      · simp [hg.top] at hm
      · rw [hno] at hhas
        cases hhas
    · exact Or.inr ⟨hs.kept.has_parent hm, hnew⟩
  obtain ⟨rest, hrest, hall⟩ := ascend_append (P := fun k => k = c ∨ k = root ∨ g.has k = false)
    (fun k hk m hm => Or.inr ((habove k hk m hm).imp_right And.right)) steps met [c]
    (fun k hk => Or.inl (List.mem_singleton.1 hk))
  refine ⟨rest, hrest, fun m hm => ?_⟩
  obtain ⟨k, hk, hm⟩ := hall m hm
  exact habove k hk m hm

/-- An upward search for what is neither the program nor new finds the same. -/
theorem nearestAncestor?_eq (hs : Colors g h) (hg : Resolved g root) (hn : g.Below root n)
    (htype : (g.kind n).category ≠ .type) (hcls : g.kind n ≠ .decl .classDecl)
    {p q : NodeId → Bool} (hpq : ∀ m, g.Below root m → q m = p m) (hroot : p root = false)
    (hnew : ∀ m, h.has m → g.has m = false → q m = false) :
    h.nearestAncestor? n q = g.nearestAncestor? n p := by
  obtain ⟨l, hl⟩ := hg.rooted.exists_ancestors hn
  have hbelow : ∀ m ∈ l, g.Below root m := by
    clear hpq hcls htype
    induction hl with
    | top => nofun
    | @step k m _ hparent _ ih =>
      have hm : g.Below root m := hg.below_parent hn (by simp [hparent])
      exact List.forall_mem_cons.2 ⟨hm, ih hm⟩
  rw [hl.nearestAncestor?_eq hg.kept.balanced (hg.has_below hn)]
  rcases hs.climbs hg hl hn htype hcls with hsame | ⟨l', c, rfl, hclimbs, hc, hckind⟩
  · rw [hsame.nearestAncestor?_eq hs.kept.balanced (hs.grown.has (hg.has_below hn))]
    exact List.find?_congr fun m hm => hpq m (hbelow m hm)
  · have hsplit : l' ++ [c, root] = (l' ++ [c]) ++ [root] := by simp
    rw [hsplit] at hl hbelow ⊢
    generalize l' ++ [c] = up at hl hclimbs hbelow ⊢
    have hnodup := hl.nodup
    have hlength : (n :: (up ++ [root])).length ≤ h.size :=
      Nat.le_trans (length_le_size hnodup
        (List.forall_mem_cons.2 ⟨hg.has_below hn, hl.has hg.kept.balanced⟩)) hs.grown.size
    obtain ⟨steps, hsteps⟩ : ∃ steps, h.size + 1 = up.length + steps :=
      ⟨h.size + 1 - up.length, by
        simp only [List.length_cons, List.length_append] at hlength
        omega⟩
    have hmet : ([n] ++ up).Nodup := by
      rw [List.singleton_append]
      exact hnodup.sublist (by simp)
    obtain ⟨rest, hrest, hall⟩ := hs.rest_of_class hg hc hckind n steps ([n] ++ up)
    have hascend : h.ascend (.up n) (h.size + 1) [n] [n] = [n] ++ up ++ rest := by
      rw [hsteps, ascend_of_climbs hclimbs steps [n] hmet, hrest]
    have hfilter : ([n] ++ up ++ rest).filter (· ≠ n) = up ++ rest.filter (· ≠ n) := by
      have hup : up.filter (· ≠ n) = up := by
        refine List.filter_eq_self.2 fun m hm => ?_
        simpa using fun hmn : m = n => (List.nodup_cons.1 hmet).1 (hmn ▸ hm)
      rw [List.filter_append, List.filter_append, hup]
      simp
    have hnone : (rest.filter (· ≠ n)).find? q = none := by
      refine List.find?_eq_none.2 fun m hm => ?_
      rcases hall m (List.mem_filter.1 hm).1 with rfl | ⟨hm, hno⟩
      · simp [hpq m .root, hroot]
      · simp [hnew m hm hno]
    have hfind : up.find? q = up.find? p :=
      List.find?_congr fun m hm => hpq m (hbelow m (List.mem_append_left _ hm))
    change ((h.ascend (.up n) (h.size + 1) [n] [n]).filter (· ≠ n)).find? q = _
    rw [hascend, hfilter, List.find?_append, List.find?_append, hnone, hfind,
      List.find?_cons_of_neg (by simp [hroot])]
    rfl

/-- The nearest declaration of a kind around a node is the same. -/
theorem enclosing?_eq (hs : Colors g h) (hg : Resolved g root) (hn : g.Below root n)
    (htype : (g.kind n).category ≠ .type) (hcls : g.kind n ≠ .decl .classDecl) {kind : DeclKind}
    (hkind : kind ≠ .program) : Flow.enclosing? h n kind = Flow.enclosing? g n kind := by
  refine hs.nearestAncestor?_eq hg hn htype hcls (fun m hm => ?_) ?_ fun m hm hno => ?_
  · rw [hs.adds.kind m (hg.has_below hm)]
  · simpa [hg.program] using hkind.symm
  · have hnew := hs.adds.new m hm hno
    refine decide_eq_false fun hdecl => ?_
    rw [hdecl] at hnew
    cases hnew

/-- A colored program reads alike to the rules. -/
theorem readsAs (hs : Colors g h) (hg : Resolved g root) : Flow.ReadsAs g h root where
  below n := hs.below_iff hg.rooted
  kind n hn := hs.adds.kind n (hg.has_below hn)
  name n hn := hs.name?_eq (hg.has_below hn)
  child n r hn _ hr := hs.grown.child n r (hg.has_below hn) hr
  items n hn _ := hs.items_eq hg.kept (hg.has_below hn)
  parents n hn htype hcls := hs.grown.parents n (hg.has_below hn) htype hcls
  annotation n hn := hs.grown.annotationSet_eq nofun nofun nofun hg.rooted hn
  enclosingClass n hn hkind :=
    hs.enclosing?_eq hg hn (by simp [hkind, NodeKind.category]) (by simp [hkind]) nofun
  enclosingFunction n hn hkind :=
    hs.enclosing?_eq hg hn (by simp [hkind, NodeKind.category]) (by simp [hkind]) nofun
  methods := reachable_congr (hs.visits_eq hg.rooted) fun n hn => by
    rw [hs.adds.kind n (hg.has_below hn)]
    by_cases hfunc : g.kind n = .decl .function
    · rw [hs.grown.parents n (hg.has_below hn) (by simp [hfunc, NodeKind.category])
        (by simp [hfunc])]
      refine congrArg _ (Bool.eq_iff_iff.2 ?_)
      rw [List.any_eq_true, List.any_eq_true]
      exact exists_congr fun m => and_congr_right fun hm => by
        rw [hs.adds.kind m (hg.kept.has_parent hm)]
    · simp [hfunc]

end Graph.Colors

end TypeFlow
