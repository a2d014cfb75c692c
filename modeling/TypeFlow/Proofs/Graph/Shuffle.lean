import TypeFlow.Proofs.Graph.Children
import TypeFlow.Proofs.Graph.Reach
/-!
# Statements in another order

`Shuffles g h` says that the graph `h` is `g` with the statements of its blocks in another order.
Then the children by name are the same (`child?_eq`), and so are all lists but those of blocks
(`items_eq`) and what lies below a root (`below_iff`); parents are the same up to their order
(`parents_perm`).
-/

namespace TypeFlow

namespace Edge

variable {es fs : List Edge}

/-- Edges of different roles have one order by role. -/
theorem byRole_eq_of_perm (h : es.Perm fs) (hroles : (es.map Edge.role).Nodup) :
    byRole es = byRole fs := by
  refine List.Perm.eq_of_pairwise (fun a b ha hb hab hba => ?_) (pairwise_byRole es)
    (pairwise_byRole fs) ((perm_byRole es).trans (h.trans (perm_byRole fs).symm))
  have hb : b ∈ es := h.mem_iff.2 (mem_byRole.1 hb)
  exact List.inj_on_of_nodup_map hroles (mem_byRole.1 ha) hb
    (Role.position_inj.1 (Nat.le_antisymm hab hba))

end Edge

namespace Graph

variable {g h : Graph} {root n m : NodeId} {r : Role}

/-- The second graph has the statements of blocks in another order, and is the first in all else.
The two graphs may store edges in different orders. -/
structure Shuffles (g h : Graph) : Prop where
  kept : h.WellKept
  size : h.size = g.size
  kind : ∀ n, h.kind n = g.kind n
  payload : ∀ n, h.payload n = g.payload n
  outgoing : ∀ n, g.kind n ≠ .stmt .block → (h.outgoing n).Perm (g.outgoing n)
  others : ∀ n, ((h.outgoing n).filter (!·.role.isItem)).Perm
    ((g.outgoing n).filter (!·.role.isItem))
  items : ∀ n, (h.items n).Perm (g.items n)

/-- Shuffling is decided at the nodes of the graph. -/
theorem shuffles_iff : Shuffles g h ↔ h.WellKept ∧ h.size = g.size ∧ ∀ i < g.size,
    h.kind ⟨i⟩ = g.kind ⟨i⟩ ∧ h.payload ⟨i⟩ = g.payload ⟨i⟩ ∧
      (g.kind ⟨i⟩ ≠ .stmt .block → (h.outgoing ⟨i⟩).Perm (g.outgoing ⟨i⟩)) ∧
      ((h.outgoing ⟨i⟩).filter (!·.role.isItem)).Perm
        ((g.outgoing ⟨i⟩).filter (!·.role.isItem)) ∧
      (h.items ⟨i⟩).Perm (g.items ⟨i⟩) := by
  refine ⟨fun hs => ⟨hs.kept, hs.size, fun i _ => ⟨hs.kind _, hs.payload _, hs.outgoing _,
    hs.others _, hs.items _⟩⟩, fun ⟨hkept, hsize, hall⟩ => ?_⟩
  have hnode : ∀ n, (h.kind n = g.kind n ∧ h.payload n = g.payload n ∧
      (g.kind n ≠ .stmt .block → (h.outgoing n).Perm (g.outgoing n)) ∧
      ((h.outgoing n).filter (!·.role.isItem)).Perm ((g.outgoing n).filter (!·.role.isItem)) ∧
      (h.items n).Perm (g.items n)) := by
    intro n
    by_cases hn : n.index < g.size
    · exact hall n.index hn
    · have hg : g.node n = default := node_of_not_has (by simpa [has] using hn)
      have hh : h.node n = default := node_of_not_has (by simpa [has, hsize] using hn)
      simp [kind, payload, Graph.outgoing, Graph.items, itemEdges, hg, hh]
  exact ⟨hkept, hsize, fun n => (hnode n).1, fun n => (hnode n).2.1, fun n => (hnode n).2.2.1,
    fun n => (hnode n).2.2.2.1, fun n => (hnode n).2.2.2.2⟩

namespace Shuffles

variable (hs : Shuffles g h)

include hs

theorem has_eq (n : NodeId) : h.has n = g.has n := by rw [has, has, hs.size]

theorem name?_eq (n : NodeId) : h.name? n = g.name? n := by rw [name?, name?, hs.payload]

theorem fresh_eq : h.fresh = g.fresh := by rw [fresh, fresh, hs.size]

/-- Edges that are not to items are the same. -/
theorem mem_outgoing (hr : r.isItem = false) :
    ⟨r, m⟩ ∈ h.outgoing n ↔ ⟨r, m⟩ ∈ g.outgoing n := by
  have hmem := (hs.others n).mem_iff (a := ⟨r, m⟩)
  simpa [hr] using hmem

theorem child?_eq (hg : g.WellKept) (n : NodeId) (hr : r.isItem = false) :
    h.child? n r = g.child? n r := by
  refine Option.ext fun m => ?_
  rw [child?_eq_some hs.kept, child?_eq_some hg, hs.mem_outgoing hr]

theorem hasChild_eq (hg : g.WellKept) (n : NodeId) (hr : r.isItem = false) :
    h.hasChild n r = g.hasChild n r := by rw [hasChild, hasChild, hs.child?_eq hg n hr]

theorem filter_byRole_eq (hg : g.WellKept) (hn : g.kind n ≠ .stmt .block) (p : Edge → Bool) :
    Edge.byRole ((h.outgoing n).filter p) = Edge.byRole ((g.outgoing n).filter p) := by
  refine (Edge.byRole_eq_of_perm ((hs.outgoing n hn).symm.filter p) ?_).symm
  exact (hg.unique n).sublist ((List.filter_sublist).map _)

/-- A list that is not one of statements is the same. -/
theorem items_eq (hg : g.WellKept) (hn : g.kind n ≠ .stmt .block) : h.items n = g.items n := by
  rw [Graph.items, Graph.items, itemEdges, itemEdges, hs.filter_byRole_eq hg hn]

theorem below_eq (hg : g.WellKept) (hn : g.kind n ≠ .stmt .block) (s : Search) :
    h.below s n = g.below s n := by
  rw [below, below, hs.filter_byRole_eq hg hn]

end Shuffles

/-! ## Nodes below nodes -/

/-- The targets of structural edges: the items, and others. -/
theorem perm_below (g : Graph) (root n : NodeId) : (g.below (.down root) n).Perm
    (g.items n ++ (((g.outgoing n).filter (!·.role.isItem)).filter
      (·.role.isStructural)).map (·.node)) := by
  have hexpands : (Search.down root).expands n := by simp [Search.expands, Search.down]
  have hstructural : ∀ e : Edge, (e.role.isStructural && e.role.isItem) = e.role.isItem := by
    rintro ⟨r, m⟩
    cases r <;> rfl
  rw [below, if_pos hexpands, Graph.items, itemEdges, ← List.map_append]
  refine List.Perm.map _ ((Edge.perm_byRole _).trans ?_)
  refine ((List.filter_append_perm (fun e : Edge => e.role.isItem) _).symm.trans ?_)
  refine List.Perm.append ?_ ?_
  · refine List.Perm.trans (List.Perm.of_eq ?_) (Edge.perm_byRole _).symm
    rw [List.filter_filter]
    refine List.filter_congr fun e _ => ?_
    rw [Bool.and_comm]
    exact hstructural e
  · refine List.Perm.of_eq ?_
    rw [List.filter_filter, List.filter_filter]
    exact List.filter_congr fun e _ => Bool.and_comm _ _

/-- A node is a parent as often as the other is below it. -/
theorem count_parents (root : NodeId) (hg : g.WellKept) :
    (g.parents n).count m = (g.below (.down root) m).count n := by
  have hexpands : (Search.down root).expands m := by simp [Search.expands, Search.down]
  have hleft : (g.parents n).count m =
      (((g.incoming n).filter (·.node = m)).map Edge.role).countP Role.isStructural := by
    rw [parents, List.count, List.countP_map, List.countP_filter, List.countP_map,
      List.countP_filter]
    exact List.countP_congr fun e _ => by simp [and_comm]
  have hright : (g.below (.down root) m).count n =
      (((g.outgoing m).filter (·.node = n)).map Edge.role).countP Role.isStructural := by
    rw [below, if_pos hexpands, List.count,
      ((Edge.perm_byRole _).map _).countP_eq, List.countP_map, List.countP_filter, List.countP_map,
      List.countP_filter]
    exact List.countP_congr fun e _ => by simp [Search.down, and_comm]
  rw [hleft, hright, (perm_roles hg.balanced).countP_eq]

namespace Shuffles

variable (hs : Shuffles g h)

include hs

theorem below_perm (root n : NodeId) :
    (h.below (.down root) n).Perm (g.below (.down root) n) :=
  (perm_below h root n).trans (((hs.items n).append (((hs.others n).filter _).map _)).trans
    (perm_below g root n).symm)

theorem parents_perm (hg : g.WellKept) (n : NodeId) : (h.parents n).Perm (g.parents n) := by
  refine List.perm_iff_count.2 fun m => ?_
  rw [count_parents n hs.kept, count_parents n hg,
    (hs.below_perm n m).count_eq]

theorem mem_structural : (∃ e ∈ h.outgoing n, e.role.isStructural ∧ e.node = m) ↔
    ∃ e ∈ g.outgoing n, e.role.isStructural ∧ e.node = m := by
  rw [← @mem_below_down h n, ← @mem_below_down g n, (hs.below_perm n n).mem_iff]

/-- The same nodes lie below a root. -/
theorem below_iff (root n : NodeId) : h.Below root n ↔ g.Below root n :=
  ⟨fun hn => hn.mono fun _ e he hr => hs.mem_structural.1 ⟨e, he, hr, rfl⟩,
    fun hn => hn.mono fun _ e he hr => hs.mem_structural.2 ⟨e, he, hr, rfl⟩⟩

end Shuffles

end Graph

end TypeFlow
