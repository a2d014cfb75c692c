import TypeFlow.Proofs.Graph.WellKept
/-!
# Children and parents

In a well-kept graph a child is the target of the one edge of its role. Setting a child changes
this child alone: the other children, the items and the kinds of nodes stay, and parents too if
the role is that of a link across the tree (`child?_setChild`, `parents_setChild`).
-/

namespace TypeFlow

namespace Graph

variable {g : Graph} {s d n m : NodeId} {r q : Role}

theorem mem_of_child? (h : g.child? n r = some m) : ⟨r, m⟩ ∈ g.outgoing n := by
  obtain ⟨e, he, rfl⟩ := Option.map_eq_some_iff.1 h
  obtain rfl : e.role = r := by simpa using List.find?_some he
  exact List.mem_of_find?_eq_some he

theorem child?_eq_none : g.child? n r = none ↔ r ∉ (g.outgoing n).map Edge.role := by
  simp [child?]

theorem child?_eq_some (hg : g.WellKept) : g.child? n r = some m ↔ ⟨r, m⟩ ∈ g.outgoing n := by
  refine ⟨mem_of_child?, fun h => ?_⟩
  cases hc : g.child? n r with
  | none => exact absurd (List.mem_map_of_mem (f := Edge.role) h) (child?_eq_none.1 hc)
  | some k => rw [hg.target_unique (mem_of_child? hc) h]

theorem mem_parents : m ∈ g.parents n ↔ ∃ r, r.isStructural ∧ ⟨r, m⟩ ∈ g.incoming n := by
  unfold parents
  constructor
  · intro h
    obtain ⟨⟨r, k⟩, he, rfl⟩ := List.mem_map.1 h
    obtain ⟨he, hr⟩ := List.mem_filter.1 he
    exact ⟨r, hr, he⟩
  · rintro ⟨r, hr, he⟩
    exact List.mem_map.2 ⟨⟨r, m⟩, List.mem_filter.2 ⟨he, hr⟩, rfl⟩

/-- Parents are the nodes with a structural edge to a node. -/
theorem mem_parents_iff (hg : g.WellKept) :
    m ∈ g.parents n ↔ ∃ r, r.isStructural ∧ ⟨r, n⟩ ∈ g.outgoing m := by
  simp only [mem_parents, hg.mem_iff]

/-- A node with one parent has one structural edge to it. -/
theorem WellKept.only_edge (hg : g.WellKept) {p a b : NodeId} (hp : g.parents n = [p])
    (hr : r.isStructural) (ha : ⟨r, n⟩ ∈ g.outgoing a) (hq : q.isStructural)
    (hb : ⟨q, n⟩ ∈ g.outgoing b) : a = b ∧ r = q := by
  obtain ⟨e, he, -⟩ := List.map_eq_singleton_iff.1 hp
  have hmem : ∀ {r : Role} {a : NodeId}, r.isStructural → ⟨r, n⟩ ∈ g.outgoing a →
      (⟨r, a⟩ : Edge) = e := by
    intro r a hr ha
    have ha' : (⟨r, a⟩ : Edge) ∈ (g.incoming n).filter (·.role.isStructural) :=
      List.mem_filter.2 ⟨hg.mem_iff.1 ha, hr⟩
    rw [he] at ha'
    exact List.mem_singleton.1 ha'
  have hsame := (hmem hr ha).trans (hmem hq hb).symm
  exact ⟨congrArg Edge.node hsame, congrArg Edge.role hsame⟩

theorem WellKept.parents_eq_singleton (hg : g.WellKept) {p : NodeId} (hr : r.isStructural)
    (he : ⟨r, n⟩ ∈ g.outgoing p)
    (honly : ∀ q a, q.isStructural → ⟨q, n⟩ ∈ g.outgoing a → a = p ∧ q = r) :
    g.parents n = [p] := by
  have hall : ∀ e ∈ (g.incoming n).filter (·.role.isStructural), e = ⟨r, p⟩ := by
    rintro ⟨q, a⟩ he
    obtain ⟨he, hq⟩ := List.mem_filter.1 he
    obtain ⟨rfl, rfl⟩ := honly q a hq (hg.mem_iff.2 he)
    rfl
  have hcount : ((g.incoming n).filter (·.role.isStructural)).count ⟨r, p⟩ = 1 := by
    rw [List.count_filter (p := fun e : Edge => e.role.isStructural) hr, ← hg.balanced]
    exact List.count_eq_one_of_mem (List.Nodup.of_map Edge.role (hg.unique p)) he
  rw [parents, List.eq_replicate_of_mem hall, ← List.count_eq_length.2 fun e he => (hall e he).symm,
    hcount]
  rfl

/-- The roles between two nodes are recorded at both. -/
theorem perm_roles (hg : g.Balanced) : (((g.incoming n).filter (·.node = m)).map Edge.role).Perm
    (((g.outgoing m).filter (·.node = n)).map Edge.role) := by
  have hcount : ∀ (edges : List Edge) (k : NodeId) (r : Role),
      ((edges.filter (·.node = k)).map Edge.role).count r = edges.count ⟨r, k⟩ := by
    intro edges k r
    rw [List.count, List.count, List.countP_map, List.countP_filter]
    refine List.countP_congr fun e _ => ?_
    cases e
    simp [and_comm]
  refine List.perm_iff_count.2 fun r => ?_
  rw [hcount, hcount, hg]

theorem mem_items : m ∈ g.items n ↔ ∃ r, r.isItem ∧ ⟨r, m⟩ ∈ g.outgoing n := by
  unfold items itemEdges
  constructor
  · intro h
    obtain ⟨⟨r, k⟩, he, rfl⟩ := List.mem_map.1 h
    obtain ⟨he, hr⟩ := List.mem_filter.1 (Edge.mem_byRole.1 he)
    exact ⟨r, hr, he⟩
  · rintro ⟨r, hr, he⟩
    exact List.mem_map.2 ⟨⟨r, m⟩, Edge.mem_byRole.2 (List.mem_filter.2 ⟨he, hr⟩), rfl⟩

/-- An item is a node of the graph. -/
theorem Balanced.has_item (hg : g.Balanced) (hm : m ∈ g.items n) : g.has m := by
  obtain ⟨r, -, he⟩ := mem_items.1 hm
  exact hg.has_target he

theorem WellKept.has_item (hg : g.WellKept) (hm : m ∈ g.items n) : g.has m :=
  Balanced.has_item hg.balanced hm

/-! ## Linking -/

section Link

theorem child?_link (hs : g.has s) (hr : g.child? s r = none) : (g.link s r d).child? n q =
    if n = s ∧ q = r then some d else g.child? n q := by
  unfold child? at hr ⊢
  rw [outgoing_link hs]
  by_cases hn : n = s
  · subst hn
    by_cases hq : q = r
    · subst hq
      simp [List.find?_append, Option.map_eq_none_iff.1 hr]
    · simp [List.find?_append, hq, Ne.symm hq]
  · simp [hn]

theorem parents_link (hd : g.has d) : (g.link s r d).parents n =
    if n = d ∧ r.isStructural then g.parents n ++ [s] else g.parents n := by
  unfold parents
  rw [incoming_link hd]
  by_cases hn : n = d
  · subst hn
    by_cases hr : r.isStructural <;> simp [hr]
  · simp [hn]

end Link

/-! ## Setting a child -/

section SetChild

@[simp] theorem kind_removeChild : (g.removeChild s r).kind n = g.kind n := by
  unfold removeChild
  split <;> simp [dropIncoming]

@[simp] theorem payload_removeChild : (g.removeChild s r).payload n = g.payload n := by
  unfold removeChild
  split <;> simp [dropIncoming]

@[simp] theorem has_setChild : (g.setChild s r d).has n = g.has n := by simp [setChild]

@[simp] theorem kind_setChild : (g.setChild s r d).kind n = g.kind n := by simp [setChild]

@[simp] theorem payload_setChild : (g.setChild s r d).payload n = g.payload n := by
  simp [setChild]

theorem outgoing_removeChild (hg : g.WellKept) : (g.removeChild s r).outgoing n =
    if n = s then (g.outgoing n).filter (·.role ≠ r) else g.outgoing n := by
  unfold removeChild
  split
  · next hnone =>
    split
    · next h =>
      subst h
      refine (List.filter_eq_self.2 fun e he => ?_).symm
      simpa using List.find?_eq_none.1 hnone e he
    · rfl
  · next e he =>
    have hnodup : (g.outgoing s).Nodup := List.Nodup.of_map Edge.role (hg.unique s)
    rw [eraseP_of_find? he]
    refine (outgoing_unlink (g := g) (s := s) (e := e) n).trans ?_
    split
    · next h =>
      subst h
      rw [hnodup.erase_eq_filter]
      refine List.filter_congr fun f hf => ?_
      have hrole : e.role = r := by simpa using List.find?_some he
      have hiff : f.role = r ↔ f = e := ⟨fun h =>
        List.inj_on_of_nodup_map (hg.unique n) hf (List.mem_of_find?_eq_some he)
          (h.trans hrole.symm),
        fun h => h ▸ hrole⟩
      by_cases hfe : f = e <;> simp [hiff, hfe, hrole]
    · rfl

/-- A set child comes last, behind the edges of other roles. -/
theorem outgoing_setChild (hg : g.WellKept) (hs : g.has s) : (g.setChild s r d).outgoing n =
    if n = s then (g.outgoing n).filter (·.role ≠ r) ++ [⟨r, d⟩] else g.outgoing n := by
  rw [setChild, outgoing_link (by simpa using hs), outgoing_removeChild hg]
  split <;> rfl

/-- Setting a child sets this child alone. -/
theorem child?_setChild (hg : g.WellKept) (hs : g.has s) : (g.setChild s r d).child? n q =
    if n = s ∧ q = r then some d else g.child? n q := by
  have hnone : (g.removeChild s r).child? s r = none :=
    child?_eq_none.2 (role_not_mem_removeChild hg)
  rw [setChild, child?_link (by simpa using hs) hnone]
  split
  · rfl
  · next hne =>
    unfold child?
    rw [outgoing_removeChild hg]
    by_cases hn : n = s
    · subst hn
      have hq : q ≠ r := fun h => hne ⟨rfl, h⟩
      rw [if_pos rfl, List.find?_filter]
      congr 2
      funext e
      by_cases he : e.role = q <;> simp [he, hq]
    · rw [if_neg hn]

theorem items_setChild (hg : g.WellKept) (hs : g.has s) (hr : r.isItem = false) :
    (g.setChild s r d).items n = g.items n := by
  unfold items itemEdges
  rw [outgoing_setChild hg hs]
  split
  · rw [List.filter_append, List.filter_filter]
    have hlast : ([⟨r, d⟩] : List Edge).filter (·.role.isItem) = [] := by simp [hr]
    have hkeep : (g.outgoing n).filter (fun e => e.role.isItem && decide (e.role ≠ r)) =
        (g.outgoing n).filter (·.role.isItem) := by
      refine List.filter_congr fun e _ => ?_
      by_cases he : e.role = r <;> simp [he, hr]
    rw [hlast, hkeep, List.append_nil]
  · rfl

/-- Links across the tree make no parents. -/
theorem parents_setChild (hd : g.has d) (hr : r.isStructural = false) :
    (g.setChild s r d).parents n = g.parents n := by
  rw [setChild, parents_link (by simpa using hd), if_neg (by simp [hr])]
  unfold removeChild
  split
  · rfl
  · next e he =>
    have hrole : e.role = r := by simpa using List.find?_some he
    unfold parents
    rw [incoming_dropIncoming, incoming_setOutgoing]
    split
    · rw [← List.erase_filter, List.erase_of_not_mem]
      simp [hrole, hr]
    · rfl

end SetChild

end Graph

end TypeFlow
