import TypeFlow.Proofs.Graph.Children
/-!
# Graphs that grow

A graph grows into another one if that one has all its nodes and edges, but for the edges from
functions to their locals (`Graph.Grows`). It does so by new nodes, by new locals and by items of
new nodes.
-/

namespace TypeFlow

namespace Graph

variable {g h k : Graph} {n m s d : NodeId} {r : Role}

/-- No node is tied to a definition. -/
def Untied (g : Graph) : Prop := ∀ n, ∀ e ∈ g.outgoing n, e.role ≠ .ref

instance (g : Graph) : Decidable g.Untied :=
  decidable_of_iff (∀ i < g.size, ∀ e ∈ g.outgoing ⟨i⟩, e.role ≠ .ref) <| by
    refine ⟨fun h n => ?_, fun h i _ => h ⟨i⟩⟩
    by_cases hn : g.has n = true
    · exact h n.index (by simpa [has] using hn)
    · simp [outgoing_of_not_has (by simpa using hn)]

theorem Untied.child?_ref (h : g.Untied) (n : NodeId) : g.child? n .ref = none :=
  child?_eq_none.2 fun hmem => by
    obtain ⟨e, he, hr⟩ := List.mem_map.1 hmem
    exact h n e he hr

/-- An edge that collecting scopes does not touch: any but that to the locals of a function. -/
def isFixed (g : Graph) (n : NodeId) (e : Edge) : Bool :=
  !(e.role = .locals && g.kind n = .decl .function)

/-- A graph grows into a larger one: its nodes stay what they are, and so do their edges, in their
order, up to those from functions to their locals. -/
structure Grows (g h : Graph) : Prop where
  has : ∀ n, g.has n → h.has n
  kind : ∀ n, g.has n → h.kind n = g.kind n
  payload : ∀ n, g.has n → h.payload n = g.payload n
  outgoing : ∀ n, g.has n →
    (h.outgoing n).filter (g.isFixed n) = (g.outgoing n).filter (g.isFixed n)
  untied : g.Untied → h.Untied

namespace Grows

theorem refl (g : Graph) : Grows g g := ⟨fun _ h => h, fun _ _ => rfl, fun _ _ => rfl,
  fun _ _ => rfl, id⟩

theorem isFixed_eq (hgh : Grows g h) (hn : g.has n) : h.isFixed n = g.isFixed n := by
  funext e
  simp [isFixed, hgh.kind n hn]

theorem trans (hgh : Grows g h) (hhk : Grows h k) : Grows g k where
  has n hn := hhk.has n (hgh.has n hn)
  kind n hn := (hhk.kind n (hgh.has n hn)).trans (hgh.kind n hn)
  payload n hn := (hhk.payload n (hgh.has n hn)).trans (hgh.payload n hn)
  outgoing n hn := by
    have hout := hhk.outgoing n (hgh.has n hn)
    rw [hgh.isFixed_eq hn] at hout
    exact hout.trans (hgh.outgoing n hn)
  untied hg := hhk.untied (hgh.untied hg)

/-- The items of a node are among the edges that stay. -/
theorem items_eq (hgh : Grows g h) (hn : g.has n) : h.items n = g.items n := by
  have hitems : ∀ es : List Edge, (es.filter (g.isFixed n)).filter (·.role.isItem) =
      es.filter (·.role.isItem) := by
    intro es
    rw [List.filter_filter]
    refine List.filter_congr fun e _ => ?_
    cases hr : e.role <;> simp [isFixed, hr, Role.isItem, Role.index?]
  rw [items, itemEdges, ← hitems, hgh.outgoing n hn, hitems]
  rfl

theorem child?_eq (hgh : Grows g h) (hn : g.has n) (hr : r ≠ .locals) :
    h.child? n r = g.child? n r := by
  have hfind : ∀ es : List Edge, (es.filter (g.isFixed n)).find? (·.role = r) =
      es.find? (·.role = r) := by
    intro es
    rw [List.find?_filter]
    congr 1
    funext e
    by_cases he : e.role = r <;> simp [isFixed, he, hr]
  rw [child?, child?, ← hfind, hgh.outgoing n hn, hfind]

end Grows

theorem grows_add (g : Graph) (kind : NodeKind) (p : Payload) : Grows g (g.add kind p) := by
  have hne : ∀ n, g.has n → n ≠ g.fresh := by
    rintro n hn rfl
    rw [has_fresh] at hn
    cases hn
  refine ⟨fun n hn => ?_, fun n hn => ?_, fun n hn => ?_, fun n _ => ?_, fun hg n => ?_⟩
  · rw [has_add, hn]
    rfl
  · rw [kind_add, if_neg (hne n hn)]
  · rw [payload_add, if_neg (hne n hn)]
  · rw [outgoing_add]
  · rw [outgoing_add]
    exact hg n

/-- The last edge after setting a child is the new one; the others are edges from before. -/
theorem outgoing_setChild_eraseP (hs : g.has s) : (g.setChild s r d).outgoing n =
    if n = s then (g.outgoing n).eraseP (·.role = r) ++ [⟨r, d⟩] else g.outgoing n := by
  have hremove : (g.removeChild s r).outgoing n =
      if n = s then (g.outgoing n).eraseP (·.role = r) else g.outgoing n := by
    unfold removeChild
    split
    · next hnone =>
      split
      · next h =>
        rw [h, List.eraseP_of_forall_not fun e he => by simpa using List.find?_eq_none.1 hnone e he]
      · rfl
    · next e he =>
      rw [outgoing_dropIncoming, outgoing_setOutgoing_map (f := List.eraseP (·.role = r)) rfl]
  rw [setChild, outgoing_link (by simpa using hs), hremove]
  split <;> rfl

theorem filter_eraseP {p q : Edge → Bool} (h : ∀ e, q e → p e = false) :
    ∀ es : List Edge, (es.eraseP q).filter p = es.filter p
  | [] => rfl
  | e :: es => by
    by_cases he : q e
    · simp [List.eraseP_cons_of_pos he, h e he]
    · rw [List.eraseP_cons_of_neg he, List.filter_cons, List.filter_cons, filter_eraseP h es]

theorem grows_setLocals (hs : g.has s) (hkind : g.kind s = .decl .function) (d : NodeId) :
    Grows g (g.setChild s .locals d) where
  has n hn := by simpa using hn
  kind n _ := kind_setChild
  payload n _ := payload_setChild
  outgoing n _ := by
    rw [outgoing_setChild_eraseP hs]
    split
    · next h =>
      subst h
      have hlocals : ∀ e : Edge, decide (e.role = .locals) → g.isFixed n e = false := by
        intro e he
        simp [isFixed, hkind, of_decide_eq_true he]
      rw [List.filter_append, filter_eraseP hlocals]
      simp [isFixed, hkind]
    · rfl
  untied hg n e he := by
    rw [outgoing_setChild_eraseP hs] at he
    split at he
    · rcases List.mem_append.1 he with he | he
      · exact hg n e (List.mem_of_mem_eraseP he)
      · obtain rfl := List.mem_singleton.1 he
        nofun
    · exact hg n e he

/-- Items of a node that only the larger graph has change nothing for the smaller one. -/
theorem Grows.pushItem (hgh : Grows g h) (hs : g.has s = false) (hs' : h.has s) (d : NodeId) :
    Grows g (h.pushItem s d) where
  has n hn := by simpa [Graph.pushItem] using hgh.has n hn
  kind n hn := by simpa [Graph.pushItem] using hgh.kind n hn
  payload n hn := by simpa [Graph.pushItem] using hgh.payload n hn
  outgoing n hn := by
    have hne : n ≠ s := by
      rintro rfl
      rw [hs] at hn
      cases hn
    rw [Graph.pushItem, outgoing_link hs', if_neg hne, hgh.outgoing n hn]
  untied hg n e he := by
    rw [Graph.pushItem, outgoing_link hs'] at he
    split at he
    · rcases List.mem_append.1 he with he | he
      · exact hgh.untied hg n e he
      · obtain rfl := List.mem_singleton.1 he
        nofun
    · exact hgh.untied hg n e he

end Graph

end TypeFlow
