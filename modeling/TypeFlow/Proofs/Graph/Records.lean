import TypeFlow.Graph.Edit
/-!
# The records of edges

What each edit does to the two lists of edges of a node. The edits are made of changes to one
record (`node_update`); on a number outside the graph they change nothing, which reads as a node
without edges.
-/

namespace TypeFlow

/-! ## Edges by role -/

namespace Edge

theorem perm_insertByRole (e : Edge) : ∀ edges : List Edge,
    (e.insertByRole edges).Perm (e :: edges)
  | [] => .refl _
  | f :: fs => by
    rw [insertByRole]
    split
    · exact .refl _
    · exact ((perm_insertByRole e fs).cons f).trans (.swap e f fs)

/-- Ordering edges by role keeps them all. -/
theorem perm_byRole : ∀ edges : List Edge, (byRole edges).Perm edges
  | [] => .refl _
  | e :: es => (perm_insertByRole e (byRole es)).trans ((perm_byRole es).cons e)

@[simp] theorem mem_byRole {e : Edge} {edges : List Edge} : e ∈ byRole edges ↔ e ∈ edges :=
  (perm_byRole edges).mem_iff

theorem pairwise_insertByRole {e : Edge} {es : List Edge}
    (h : es.Pairwise (·.role.position ≤ ·.role.position)) :
    (e.insertByRole es).Pairwise (·.role.position ≤ ·.role.position) := by
  induction es with
  | nil => simp [insertByRole]
  | cons f fs ih =>
    obtain ⟨hf, hfs⟩ := List.pairwise_cons.1 h
    rw [insertByRole]
    split
    · next hle =>
      refine List.pairwise_cons.2 ⟨fun a ha => ?_, h⟩
      rcases List.mem_cons.1 ha with rfl | ha
      · exact hle
      · exact Nat.le_trans hle (hf a ha)
    · next hlt =>
      refine List.pairwise_cons.2 ⟨fun a ha => ?_, ih hfs⟩
      rcases List.mem_cons.1 ((perm_insertByRole e fs).mem_iff.1 ha) with rfl | ha
      · omega
      · exact hf a ha

theorem pairwise_byRole (es : List Edge) :
    (byRole es).Pairwise (·.role.position ≤ ·.role.position) := by
  induction es with
  | nil => exact List.Pairwise.nil
  | cons e es ih => exact pairwise_insertByRole ih

end Edge

namespace Graph

variable {g : Graph} {n m : NodeId}

/-! ## Changes to one record -/

theorem node_of_not_has (h : g.has n = false) : g.node n = default := by
  have hn : g.size ≤ n.index := by simpa [has] using h
  simp only [node, size] at hn ⊢
  rw [Array.getD_eq_getD_getElem?, Array.getElem?_eq_none hn, Option.getD_none]

@[simp] theorem size_update (f : Node → Node) : (g.update n f).size = g.size := by
  simp [update, size]

@[simp] theorem has_update (f : Node → Node) : (g.update n f).has m = g.has m := by
  simp [has]

theorem node_update (f : Node → Node) :
    (g.update n f).node m = if m = n ∧ g.has n then f (g.node m) else g.node m := by
  cases m with | mk i
  cases n with | mk j
  simp only [update, node, has, size, Array.getD_eq_getD_getElem?, Array.getElem?_modify,
    NodeId.mk.injEq]
  by_cases hij : j = i
  · subst hij
    by_cases hj : j < g.nodes.size
    · simp [hj]
    · simp [hj]
  · simp [hij, Ne.symm hij]

theorem outgoing_of_not_has (h : g.has n = false) : g.outgoing n = [] := by
  rw [outgoing, node_of_not_has h]
  rfl

theorem incoming_of_not_has (h : g.has n = false) : g.incoming n = [] := by
  rw [incoming, node_of_not_has h]
  rfl

/-! ## Adding a node, and changes to kinds and payloads -/

section Content

variable (k : NodeKind) (p : Payload)

@[simp] theorem size_add : (g.add k p).size = g.size + 1 := by simp [add, size]

theorem has_add : (g.add k p).has m = (g.has m || decide (m = g.fresh)) := by
  cases m with | mk i
  simp only [has, size_add, fresh, NodeId.mk.injEq, ← Bool.decide_or]
  exact decide_eq_decide.2 (by omega)

theorem node_add : (g.add k p).node m = if m = g.fresh then ⟨k, p, [], []⟩ else g.node m := by
  cases m with | mk i
  simp only [add, node, fresh, size, Array.getD_eq_getD_getElem?, Array.getElem?_push,
    NodeId.mk.injEq]
  by_cases h : i = g.nodes.size <;> simp [h]

theorem has_fresh : g.has g.fresh = false := by simp [has, fresh]

theorem kind_of_not_has (h : g.has n = false) : g.kind n = default := by
  rw [kind, node_of_not_has h]
  rfl

theorem has_of_kind {k : NodeKind} (hn : g.kind n = k) (hk : k ≠ default) : g.has n := by
  cases h : g.has n with
  | true => rfl
  | false => exact absurd (hn.symm.trans (kind_of_not_has h)) hk

theorem kind_add : (g.add k p).kind m = if m = g.fresh then k else g.kind m := by
  rw [kind, node_add]
  split <;> rfl

theorem payload_add : (g.add k p).payload m = if m = g.fresh then p else g.payload m := by
  rw [payload, node_add]
  split <;> rfl

@[simp] theorem outgoing_add : (g.add k p).outgoing m = g.outgoing m := by
  rw [outgoing, node_add]
  split
  · next h => rw [h, outgoing_of_not_has has_fresh]
  · rfl

@[simp] theorem incoming_add : (g.add k p).incoming m = g.incoming m := by
  rw [incoming, node_add]
  split
  · next h => rw [h, incoming_of_not_has has_fresh]
  · rfl

@[simp] theorem outgoing_setKind : (g.setKind n k).outgoing m = g.outgoing m := by
  rw [outgoing, setKind, node_update]
  split <;> rfl

@[simp] theorem incoming_setKind : (g.setKind n k).incoming m = g.incoming m := by
  rw [incoming, setKind, node_update]
  split <;> rfl

theorem kind_setKind : (g.setKind n k).kind m = if m = n ∧ g.has n then k else g.kind m := by
  rw [kind, setKind, node_update]
  split <;> rfl

@[simp] theorem payload_setKind : (g.setKind n k).payload m = g.payload m := by
  rw [payload, setKind, node_update]
  split <;> rfl

@[simp] theorem outgoing_setPayload : (g.setPayload n p).outgoing m = g.outgoing m := by
  rw [outgoing, setPayload, node_update]
  split <;> rfl

@[simp] theorem incoming_setPayload : (g.setPayload n p).incoming m = g.incoming m := by
  rw [incoming, setPayload, node_update]
  split <;> rfl

end Content

/-! ## Changes to one list -/

section Lists

variable {edges : List Edge}

@[simp] theorem has_setOutgoing : (g.setOutgoing n edges).has m = g.has m := has_update _

@[simp] theorem has_setIncoming : (g.setIncoming n edges).has m = g.has m := has_update _

theorem outgoing_setOutgoing :
    (g.setOutgoing n edges).outgoing m = if m = n ∧ g.has n then edges else g.outgoing m := by
  rw [outgoing, setOutgoing, node_update]
  split <;> rfl

@[simp] theorem incoming_setOutgoing : (g.setOutgoing n edges).incoming m = g.incoming m := by
  rw [incoming, setOutgoing, node_update]
  split <;> rfl

theorem incoming_setIncoming :
    (g.setIncoming n edges).incoming m = if m = n ∧ g.has n then edges else g.incoming m := by
  rw [incoming, setIncoming, node_update]
  split <;> rfl

@[simp] theorem outgoing_setIncoming : (g.setIncoming n edges).outgoing m = g.outgoing m := by
  rw [outgoing, setIncoming, node_update]
  split <;> rfl

@[simp] theorem kind_setOutgoing : (g.setOutgoing n edges).kind m = g.kind m := by
  rw [kind, setOutgoing, node_update]
  split <;> rfl

@[simp] theorem kind_setIncoming : (g.setIncoming n edges).kind m = g.kind m := by
  rw [kind, setIncoming, node_update]
  split <;> rfl

@[simp] theorem payload_setOutgoing : (g.setOutgoing n edges).payload m = g.payload m := by
  rw [payload, setOutgoing, node_update]
  split <;> rfl

@[simp] theorem payload_setIncoming : (g.setIncoming n edges).payload m = g.payload m := by
  rw [payload, setIncoming, node_update]
  split <;> rfl

/-- A list that is changed by a function which keeps the empty list may belong to any number. -/
theorem outgoing_setOutgoing_map {f : List Edge → List Edge} (hf : f [] = []) :
    (g.setOutgoing n (f (g.outgoing n))).outgoing m =
      if m = n then f (g.outgoing m) else g.outgoing m := by
  rw [outgoing_setOutgoing]
  by_cases hm : m = n
  · subst hm
    cases hg : g.has m
    · simp [outgoing_of_not_has hg, hf]
    · simp
  · simp [hm]

theorem incoming_setIncoming_map {f : List Edge → List Edge} (hf : f [] = []) :
    (g.setIncoming n (f (g.incoming n))).incoming m =
      if m = n then f (g.incoming m) else g.incoming m := by
  rw [incoming_setIncoming]
  by_cases hm : m = n
  · subst hm
    cases hg : g.has m
    · simp [incoming_of_not_has hg, hf]
    · simp
  · simp [hm]

end Lists

/-! ## Linking and unlinking -/

section Links

variable {s d : NodeId} {r : Role} {e : Edge}

@[simp] theorem has_link : (g.link s r d).has m = g.has m := by simp [link]

@[simp] theorem kind_link : (g.link s r d).kind m = g.kind m := by simp [link]

@[simp] theorem payload_link : (g.link s r d).payload m = g.payload m := by simp [link]

theorem outgoing_link (hs : g.has s) :
    (g.link s r d).outgoing m = if m = s then g.outgoing m ++ [⟨r, d⟩] else g.outgoing m := by
  rw [link, outgoing_setIncoming, outgoing_setOutgoing]
  by_cases hm : m = s
  · simp [hm, hs]
  · simp [hm]

theorem incoming_link (hd : g.has d) :
    (g.link s r d).incoming m = if m = d then g.incoming m ++ [⟨r, s⟩] else g.incoming m := by
  rw [link, incoming_setIncoming]
  by_cases hm : m = d
  · simp [hm, hd]
  · simp [hm]

@[simp] theorem has_dropIncoming : (g.dropIncoming s e).has m = g.has m := has_setIncoming

@[simp] theorem outgoing_dropIncoming : (g.dropIncoming s e).outgoing m = g.outgoing m :=
  outgoing_setIncoming

theorem incoming_dropIncoming : (g.dropIncoming s e).incoming m =
    if m = e.node then (g.incoming m).erase ⟨e.role, s⟩ else g.incoming m :=
  incoming_setIncoming_map (f := fun es => es.erase ⟨e.role, s⟩) rfl

end Links

end Graph

end TypeFlow
