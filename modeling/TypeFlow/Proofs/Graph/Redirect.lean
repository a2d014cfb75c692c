import TypeFlow.Proofs.Graph.Limbs
/-!
# What a replacement redirects

`Graph.replace` turns the edges to a node towards another one, where they stand in the lists of
their sources, and leaves alone those from the new node. `replace_redirects` says what the graph is
after that: every child, every list and the records at the old node, and that nothing else is
changed. The edges that it counts as moved are those that lead elsewhere afterwards (`turned`).
-/

namespace TypeFlow

namespace Graph

variable {g h : Graph} {old new s n : NodeId} {r : Role}

/-! ## Children and lists -/

/-- Redirected edges lead to redirected children. -/
theorem child?_of_redirect
    (hout : h.outgoing s = (g.outgoing s).map (Edge.redirect old new)) (r : Role) :
    h.child? s r = (g.child? s r).map fun n => if n = old then new else n := by
  have hrole : (fun e : Edge => decide (e.role = r)) ∘ Edge.redirect old new =
      fun e => decide (e.role = r) := by
    funext e
    simp
  rw [child?, child?, hout, List.find?_map, hrole, Option.map_map, Option.map_map]
  exact congrArg (Option.map · _) (funext fun e => Edge.node_redirect)

theorem child?_replace (hg : g.Balanced) (hne : old ≠ new) (s : NodeId) (r : Role) :
    (g.replace old new).child? s r =
      if s ≠ new ∧ g.child? s r = some old then some new else g.child? s r := by
  have hout := outgoing_replace_redirect (s := s) hg hne
  split at hout
  · next hs => rw [child?, hout, if_neg fun h => h.1 hs, child?]
  · next hs =>
    rw [child?_of_redirect hout]
    cases g.child? s r with
    | none => simp
    | some n => by_cases hn : n = old <;> simp [hs, hn]

theorem items_replace (hg : g.Balanced) (hne : old ≠ new) (s : NodeId) :
    (g.replace old new).items s =
      if s = new then g.items s else (g.items s).map fun n => if n = old then new else n := by
  have hout := outgoing_replace_redirect (s := s) hg hne
  split at hout
  · next hs => rw [items, itemEdges, hout, if_pos hs, items, itemEdges]
  · next hs => rw [if_neg hs, items_of_redirect (arms_of_redirect hout)]

theorem incoming_old_replace (hne : old ≠ new) :
    (g.replace old new).incoming old = (g.incoming old).filter (·.node = new) := by
  simp only [replace, redirected, hne, if_false]
  rw [incoming_setIncoming, if_neg fun h => hne h.1, incoming_setIncoming,
    incoming_foldl_redirectFrom]
  cases hold : g.has old
  · simp [hold, incoming_of_not_has hold]
  · simp [hold]

/-! ## How many edges are turned -/

/-- How many edges of a graph lead to another node in a second graph, which has its edges in the
same places. -/
def turned (g h : Graph) : Nat :=
  ∑ i ∈ Finset.range g.size,
    ((g.outgoing ⟨i⟩).zip (h.outgoing ⟨i⟩)).countP fun ends => ends.1.node ≠ ends.2.node

/-- Edges from nodes of the graph can be counted source by source. -/
theorem length_eq_sum_countP : ∀ {edges : List Edge}, (∀ e ∈ edges, g.has e.node) →
    edges.length = ∑ i ∈ Finset.range g.size, edges.countP (·.node = ⟨i⟩)
  | [], _ => by simp
  | e :: es, hall => by
    obtain ⟨he, hes⟩ := List.forall_mem_cons.1 hall
    have hone : ∑ i ∈ Finset.range g.size, (if e.node = ⟨i⟩ then 1 else 0) = 1 := by
      have hmem : e.node.index ∈ Finset.range g.size := by simpa [has] using he
      rw [Finset.sum_eq_single_of_mem _ hmem fun i _ hi => ?_]
      · simp
      · rw [if_neg]
        rintro hnode
        exact hi (congrArg NodeId.index hnode).symm
    simp only [List.countP_cons, decide_eq_true_eq, Finset.sum_add_distrib, hone, List.length_cons,
      ← length_eq_sum_countP hes]

theorem countP_zip_map (f : Edge → Edge) (edges : List Edge) :
    (edges.zip (edges.map f)).countP (fun ends => ends.1.node ≠ ends.2.node) =
      edges.countP fun e => e.node ≠ (f e).node := by
  have hzip : edges.zip (edges.map f) = edges.map fun e => (e, f e) := by
    simpa using List.zip_map' (f := id) (g := f) (l := edges)
  rw [hzip, List.countP_map]
  rfl

/-- As many edges lead from a node to another one as are recorded there. -/
theorem countP_outgoing_eq (hg : g.Balanced) (s n : NodeId) :
    (g.outgoing s).countP (·.node = n) = (g.incoming n).countP (·.node = s) := by
  have hlength := (perm_roles (n := n) (m := s) hg).length_eq
  simpa only [List.length_map, ← List.countP_eq_length_filter] using hlength.symm

/-- The edges that a replacement moves are those that lead elsewhere afterwards. -/
theorem length_redirected (hg : g.WellKept) (hne : old ≠ new) :
    (g.redirected old new).length = turned g (g.replace old new) := by
  have hhas : ∀ e ∈ g.redirected old new, g.has e.node := by
    intro e he
    rw [redirected, if_neg hne] at he
    exact hg.has_source (hg.mem_iff.2 (List.mem_filter.1 he).1)
  rw [length_eq_sum_countP hhas, turned]
  refine Finset.sum_congr rfl fun i _ => ?_
  rw [redirected, if_neg hne, List.countP_filter, outgoing_replace_redirect hg.balanced hne]
  by_cases hi : (⟨i⟩ : NodeId) = new
  · have hnone := countP_zip_map id (g.outgoing ⟨i⟩)
    rw [List.map_id] at hnone
    rw [if_pos hi, hnone]
    simp [← hi]
  · rw [if_neg hi, countP_zip_map]
    have hmoved : (g.outgoing ⟨i⟩).countP (fun e => e.node ≠ (e.redirect old new).node) =
        (g.outgoing ⟨i⟩).countP (·.node = old) := by
      refine List.countP_congr fun e _ => ?_
      by_cases he : e.node = old <;> simp [Edge.node_redirect, he, hne]
    rw [hmoved, countP_outgoing_eq hg.balanced]
    refine List.countP_congr fun e _ => ?_
    by_cases he : e.node = ⟨i⟩ <;> simp [he, hi]

/-! ## The whole -/

/-- A second graph is the first one with the edges to `old` turned towards `new`, as many as
`count`: each edge keeps its role and its place, and nothing else is changed. -/
structure Redirects (g h : Graph) (old new : NodeId) (count : Nat) : Prop where
  child : ∀ s r, h.child? s r =
    if s ≠ new ∧ g.child? s r = some old then some new else g.child? s r
  outgoing : ∀ s, h.outgoing s =
    if s = new then g.outgoing s else (g.outgoing s).map (Edge.redirect old new)
  items : ∀ s, h.items s =
    if s = new then g.items s else (g.items s).map fun n => if n = old then new else n
  /-- The records at the old node that are left, in their order. -/
  incoming : h.incoming old = (g.incoming old).filter (·.node = new)
  fromNew : ∀ r s, ⟨r, s⟩ ∈ h.incoming old ↔ s = new ∧ ⟨r, old⟩ ∈ g.outgoing new
  count : count = turned g h
  loops : ∀ r, ⟨r, new⟩ ∈ h.outgoing new → ⟨r, new⟩ ∈ g.outgoing new
  nodes : SameNodes g h

/-- Replacing a node of a well-kept graph redirects exactly the edges to it that do not come from
the node in its place, and counts them. -/
theorem replace_redirects (hg : g.WellKept) (hne : old ≠ new) :
    Redirects g (g.replace old new) old new (g.redirected old new).length where
  child := child?_replace hg.balanced hne
  outgoing s := outgoing_replace_redirect hg.balanced hne
  items := items_replace hg.balanced hne
  incoming := incoming_old_replace hne
  fromNew r s := by
    rw [incoming_old_replace hne, List.mem_filter, ← hg.mem_iff, decide_eq_true_iff]
    exact ⟨fun ⟨he, hs⟩ => ⟨hs, hs ▸ he⟩, fun ⟨hs, he⟩ => ⟨hs ▸ he, hs⟩⟩
  count := length_redirected hg hne
  loops r hr := by
    rwa [outgoing_replace_redirect hg.balanced hne, if_pos rfl] at hr
  nodes := sameNodes_replace old new

/-- A node that points at itself, at its replacement and twice from another node, and a replacement
that points back at it. -/
def wrappedChanges : List Change :=
  [.single (.add (.stmt .block) .none), .single (.add (.expr .ident) (.str "x")),
    .single (.add (.expr .len) .none), .single (.setChild ⟨0⟩ .value ⟨1⟩),
    .single (.pushItem ⟨0⟩ ⟨2⟩), .single (.pushItem ⟨0⟩ ⟨1⟩), .single (.setChild ⟨1⟩ .ref ⟨1⟩),
    .single (.setChild ⟨1⟩ .value ⟨2⟩), .single (.setChild ⟨2⟩ .operand ⟨1⟩),
    .single (.setChild ⟨2⟩ .ref ⟨2⟩)]

/-- The graph that these changes make. -/
def wrapped : Graph := wrappedChanges.foldl change empty

theorem replace_redirects_wrapped : wrapped.WellKept ∧ (⟨1⟩ : NodeId) ≠ ⟨2⟩ ∧
    Redirects wrapped (wrapped.replace ⟨1⟩ ⟨2⟩) ⟨1⟩ ⟨2⟩ (wrapped.redirected ⟨1⟩ ⟨2⟩).length := by
  have hkept : wrapped.WellKept := wellKept_foldl_change wrappedChanges wellKept_empty (by decide)
  exact ⟨hkept, by decide, replace_redirects hkept (by decide)⟩

/-- The edge of the replacement stays, and the three others are turned. -/
example : (wrapped.redirected ⟨1⟩ ⟨2⟩).length = 3 ∧
    (wrapped.replace ⟨1⟩ ⟨2⟩).items ⟨0⟩ = [⟨2⟩, ⟨2⟩] ∧
    (wrapped.replace ⟨1⟩ ⟨2⟩).child? ⟨1⟩ .ref = some ⟨2⟩ ∧
    (wrapped.replace ⟨1⟩ ⟨2⟩).incoming ⟨1⟩ = [⟨.operand, ⟨2⟩⟩] := by decide

end Graph

end TypeFlow
