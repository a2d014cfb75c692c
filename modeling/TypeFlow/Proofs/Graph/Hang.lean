import TypeFlow.Proofs.Graph.Rooted
/-!
# Hanging new nodes into a tree

`Graph.hang` adds a node and an edge to it from a node that is there. All else of the graph stays,
and a tree stays a tree (`Rooted.hang`). Nodes that are hung as items, one after the other, below a
node without edges become its items in this order (`items_of_places`).
-/

namespace TypeFlow

namespace Graph

/-- Add a node below another one. -/
def hang (g : Graph) (s : NodeId) (r : Role) (k : NodeKind) (p : Payload) : Graph :=
  (g.add k p).link s r g.fresh

variable {g : Graph} {root n s : NodeId} {r q : Role} {k : NodeKind} {p : Payload}

section Hang

theorem ne_fresh (hn : g.has n) : n ≠ g.fresh := by
  rintro rfl
  rw [has_fresh] at hn
  cases hn

@[simp] theorem size_hang : (g.hang s r k p).size = g.size + 1 := by
  simp [hang, link, setOutgoing, setIncoming]

theorem has_hang : (g.hang s r k p).has n = (g.has n || decide (n = g.fresh)) := by
  rw [hang, has_link, has_add]

theorem has_hang_fresh : (g.hang s r k p).has g.fresh := by simp [has_hang]

theorem kind_hang : (g.hang s r k p).kind n = if n = g.fresh then k else g.kind n := by
  rw [hang, kind_link, kind_add]

theorem payload_hang : (g.hang s r k p).payload n = if n = g.fresh then p else g.payload n := by
  rw [hang, payload_link, payload_add]

/-- The new node has one parent, and no other node has another parent than before. -/
theorem parents_hang (hr : r.isStructural) :
    (g.hang s r k p).parents n = if n = g.fresh then [s] else g.parents n := by
  have hsame : (g.add k p).parents n = g.parents n := by simp [parents]
  rw [hang, parents_link (by simp [has_add]), hsame]
  by_cases hn : n = g.fresh
  · have hnone : g.parents g.fresh = [] := by simp [parents, incoming_of_not_has has_fresh]
    simp [hn, hr, hnone]
  · simp [hn]

variable (hs : g.has s)
include hs

theorem outgoing_hang : (g.hang s r k p).outgoing n =
    if n = s then g.outgoing n ++ [⟨r, g.fresh⟩] else g.outgoing n := by
  rw [hang, outgoing_link (by simp [has_add, hs]), outgoing_add]

theorem outgoing_hang_fresh : (g.hang s r k p).outgoing g.fresh = [] := by
  rw [outgoing_hang hs, if_neg (ne_fresh hs).symm, outgoing_of_not_has has_fresh]

theorem child?_hang (hr : g.child? s r = none) : (g.hang s r k p).child? n q =
    if n = s ∧ q = r then some g.fresh else g.child? n q := by
  have hsame : ∀ n q, (g.add k p).child? n q = g.child? n q := by simp [child?]
  rw [hang, child?_link (by simp [has_add, hs]) (by rw [hsame, hr]), hsame]

theorem wellKept_hang (hg : g.WellKept) (hr : g.child? s r = none) :
    (g.hang s r k p).WellKept := by
  refine wellKept_link (wellKept_add hg k p) ?_ ?_ ?_
  · simp [has_add, hs]
  · simp [has_add]
  · rw [outgoing_add]
    exact child?_eq_none.1 hr

theorem below_hang (hn : g.Below root n) : (g.hang s r k p).Below root n := by
  induction hn with
  | root => exact .root
  | child _ he hstr ih =>
    refine ih.child ?_ hstr
    rw [outgoing_hang hs]
    split
    · exact List.mem_append_left _ he
    · exact he

/-- Nothing but the new node comes to lie below a root, and that one only if the node does that it
hangs from. -/
theorem below_of_hang (hn : (g.hang s r k p).Below root n) :
    g.Below root n ∨ n = g.fresh ∧ g.Below root s := by
  induction hn with
  | root => exact Or.inl .root
  | @child m e _ he hstr ih =>
    rw [outgoing_hang hs] at he
    rcases ih with hm | ⟨rfl, -⟩
    · by_cases hms : m = s
      · rw [if_pos hms] at he
        rcases List.mem_append.1 he with he | he
        · exact Or.inl (hm.child he hstr)
        · rw [List.mem_singleton.1 he]
          exact Or.inr ⟨rfl, hms ▸ hm⟩
      · rw [if_neg hms] at he
        exact Or.inl (hm.child he hstr)
    · rw [if_neg (ne_fresh hs).symm, outgoing_of_not_has has_fresh] at he
      cases he

theorem Rooted.hang (h : g.Rooted root) (hr : g.child? s r = none) (hstr : r.isStructural) :
    (g.hang s r k p).Rooted root where
  kept := wellKept_hang hs h.kept hr
  has := by simp [has_hang, h.has]
  top := by rw [parents_hang hstr, if_neg (ne_fresh h.has), h.top]
  tree n hn := by
    rw [parents_hang hstr]
    split
    · simp
    · next hne =>
      rcases below_of_hang hs hn with hn | ⟨hn, -⟩
      · exact h.tree n hn
      · exact absurd hn hne

end Hang

/-! ## Lists that are filled in order -/

/-- Edges to the places of a list, from the first on. -/
def places (ns : List NodeId) : List Edge := ns.mapIdx fun i n => ⟨.item (.ofNat i), n⟩

theorem places_concat (ns : List NodeId) (n : NodeId) :
    places (ns ++ [n]) = places ns ++ [⟨.item (.ofNat ns.length), n⟩] := by
  simp [places]

theorem byRole_of_pairwise : ∀ {es : List Edge},
    es.Pairwise (fun e f => e.role.position ≤ f.role.position) → Edge.byRole es = es
  | [], _ => rfl
  | e :: es, h => by
    obtain ⟨he, hes⟩ := List.pairwise_cons.1 h
    have ih : Edge.byRole es = es := byRole_of_pairwise hes
    change e.insertByRole (Edge.byRole es) = e :: es
    rw [ih]
    cases es with
    | nil => rfl
    | cons f fs => rw [Edge.insertByRole, if_pos (he f List.mem_cons_self)]

/-- Edges to the places of a list that is not too long lead to its items in order. -/
theorem items_of_places {ns : List NodeId} (hs : g.outgoing s = places ns)
    (hlength : ns.length ≤ 2 ^ 32) : g.items s = ns := by
  have hitem : (places ns).filter (·.role.isItem) = places ns := by
    refine List.filter_eq_self.2 fun e he => ?_
    obtain ⟨i, hi, rfl⟩ := List.mem_mapIdx.1 he
    rfl
  have hsorted : (places ns).Pairwise fun e f => e.role.position ≤ f.role.position := by
    refine List.pairwise_iff_getElem.2 fun i j hi hj hij => ?_
    have hj : j < ns.length := by simpa [places] using hj
    simp only [places, List.getElem_mapIdx, Role.position, UInt32.toNat_ofNat']
    omega
  rw [items, itemEdges, hs, hitem, byRole_of_pairwise hsorted]
  refine List.ext_getElem (by simp [places]) fun i _ _ => ?_
  simp [places]

/-- The index behind the places of a list is its length. -/
theorem nextIndex_of_places {ns : List NodeId} (hs : g.outgoing s = places ns)
    (hlength : ns.length < 2 ^ 32) : g.nextIndex s = .ofNat ns.length := by
  rw [nextIndex, hs]
  clear hs
  induction ns using List.reverseRecOn with
  | nil => rfl
  | append_singleton ns n ih =>
    rw [List.length_append, List.length_singleton] at hlength ⊢
    rw [places_concat, List.filterMap_append, List.foldl_append, ih (by omega)]
    have hlast : (UInt32.ofNat ns.length + 1).toNat = ns.length + 1 := by
      rw [UInt32.toNat_add, UInt32.toNat_ofNat', UInt32.toNat_one]
      omega
    have hle : UInt32.ofNat ns.length ≤ UInt32.ofNat ns.length + 1 := by
      rw [UInt32.le_iff_toNat_le, hlast, UInt32.toNat_ofNat']
      omega
    change (if UInt32.ofNat ns.length ≤ UInt32.ofNat ns.length + 1 then
      UInt32.ofNat ns.length + 1 else UInt32.ofNat ns.length) = _
    rw [if_pos hle, ← UInt32.toNat_inj, hlast, UInt32.toNat_ofNat']
    omega

/-- The next place of such a list is free. -/
theorem child?_place {ns : List NodeId} (hs : g.outgoing s = places ns)
    (hlength : ns.length < 2 ^ 32) : g.child? s (.item (.ofNat ns.length)) = none := by
  refine child?_eq_none.2 fun hmem => ?_
  obtain ⟨e, he, hrole⟩ := List.mem_map.1 hmem
  rw [hs] at he
  obtain ⟨i, hi, rfl⟩ := List.mem_mapIdx.1 he
  have hindex := congrArg UInt32.toNat (Role.item.inj hrole)
  simp only [UInt32.toNat_ofNat'] at hindex
  omega

end Graph

end TypeFlow
