import TypeFlow.Proofs.Bounds.Order
import TypeFlow.Proofs.Coloring.Palette
/-!
# What bounds decide about coloring

Whether coloring ends well is decided by the bounds and the graph alone, not by the order in which
nodes are colored: it does if every node is `Colorable`, and otherwise it stops at a node without a
consistent type (`verdict_of_forM`). How a color reads is decided by the bounds too
(`describeType_of_fits`), so that bounds within each other read alike (`boundsText_eq`).
-/

namespace TypeFlow

/-- Whether a fault says that nothing that a node was shown to yield is permitted. -/
def Fault.isInconsistent : Fault → Bool
  | .noConsistentType .. => true
  | _ => false

theorem Graph.WellKept.has_parent {g : Graph} {n m : NodeId} (hg : g.WellKept)
    (hm : m ∈ g.parents n) : g.has m := by
  obtain ⟨r, -, he⟩ := (Graph.mem_parents_iff hg).1 hm
  exact hg.has_source he

namespace Palette

open TypeSet

variable {g : Graph} {p p' : Palette} {n : NodeId} {t : BoundsTable}

/-! ## Verdicts -/

/-- Something is both shown and permitted, or the node may yield nothing. -/
def Colorable (g : Graph) (t : BoundsTable) (n : NodeId) : Prop :=
  (t.shown n).inter (t.permitted n) ≠ .empty ∨ mayYieldNothing g n

/-- Whether a node may yield nothing is not changed by making type nodes and colors. -/
theorem mayYieldNothing_eq (hp : Faithful g p) (hg : g.WellKept) (hn : g.has n) :
    mayYieldNothing p.graph n = mayYieldNothing g n := by
  have hparents : (g.kind n).category ≠ .type → g.kind n ≠ .decl .classDecl →
      ((p.graph.parents n).any fun m => p.graph.kind m = .stmt .exprStmt) =
        (g.parents n).any fun m => g.kind m = .stmt .exprStmt := by
    intro hcategory hcls
    rw [hp.grown.parents n hn hcategory hcls, Bool.eq_iff_iff, List.any_eq_true, List.any_eq_true]
    exact exists_congr fun m => and_congr_right fun hm => by
      rw [hp.grown.kind m (hg.has_parent hm)]
  simp only [mayYieldNothing, hp.grown.kind n hn]
  split
  · rfl
  · rfl
  · rfl
  · rfl
  · next hcall => exact hparents (by simp [hcall, NodeKind.category]) (by simp [hcall])
  · next hinit => exact hparents (by simp [hinit, NodeKind.category]) (by simp [hinit])
  · rfl

/-- A node with bounds is colored if it is colorable, and stops the coloring otherwise. -/
theorem verdict_of_color (ht : t.Over (ClassLeaf g)) (hg : g.WellKept) (hp : Faithful g p)
    (hn : g.has n) (hslot : (t.slot? n).isSome) :
    (Colorable g t n ∧ ∃ p', (color t n).run p = (.ok (), p') ∧ Faithful g p') ∨
      (¬Colorable g t n ∧ ∃ fault, fault.isInconsistent ∧
        (color t n).run p = (.error fault, p)) := by
  obtain ⟨s, hs⟩ := Option.isSome_iff_exists.1 hslot
  have hb : t.of? n = some ⟨t.shown n, t.permitted n⟩ := by
    rw [t.of?_eq, hs, t.shown_of_slot? hs, t.permitted_of_slot? hs]
    rfl
  have hover : TypeSet.Over (ClassLeaf g) (t.shown n) ∧
      TypeSet.Over (ClassLeaf g) (t.permitted n) := ⟨ht.shown n, ht.permitted n⟩
  have hvalid := Bounds.valid_eq (b := ⟨t.shown n, t.permitted n⟩) ⟨hover.1.1, hover.2.1⟩
  have hhas := hp.grown.has hn
  by_cases he : (t.shown n).inter (t.permitted n) = .empty
  · rw [show (Bounds.mk (t.shown n) (t.permitted n)).shown.inter _ = .empty from he] at hvalid
    by_cases hm : mayYieldNothing p.graph n = true
    · exact Or.inl ⟨Or.inr (mayYieldNothing_eq hp hg hn ▸ hm), _,
        (run_color_bound hb).trans (run_colorBounds_void hvalid hm),
        (paints_paintVoid hp hhas).faithful⟩
    · refine Or.inr ⟨fun hc => hc.elim (fun h => h he) fun h => hm ?_,
        .noConsistentType n (p.graph.kind n) (t.shown n) (t.permitted n), rfl,
        (run_color_bound hb).trans (run_colorBounds_nothing hvalid (by simpa using hm))⟩
      exact (mayYieldNothing_eq hp hg hn).trans h
  · exact Or.inl ⟨Or.inl he, _, (run_color_bound hb).trans (run_colorBounds_type hvalid he),
      (paints_paintType hp hhas (over_inter hover.1 hover.2) he).faithful⟩

/-- Nodes with bounds are colored if all of them are colorable, and otherwise the coloring stops
at one without a consistent type. -/
theorem verdict_of_forM (ht : t.Over (ClassLeaf g)) (hg : g.WellKept) : ∀ {nodes : List NodeId}
    {p : Palette}, Faithful g p → (∀ n ∈ nodes, g.has n ∧ (t.slot? n).isSome) →
      ((∀ n ∈ nodes, Colorable g t n) ∧ ∃ p', (nodes.forM (color t)).run p = (.ok (), p')) ∨
        ((∃ n ∈ nodes, ¬Colorable g t n) ∧ ∃ fault p', fault.isInconsistent ∧
          (nodes.forM (color t)).run p = (.error fault, p'))
  | [], p, _, _ => Or.inl ⟨nofun, p, rfl⟩
  | n :: ns, p, hp, hnodes => by
    obtain ⟨⟨hn, hslot⟩, hns⟩ := List.forall_mem_cons.1 hnodes
    rw [List.forM_eq_forM, List.forM_cons]
    rcases verdict_of_color ht hg hp hn hslot with ⟨hc, q, hq, hfaithful⟩ | ⟨hc, fault, hfault, hq⟩
    · rw [Run.run_bind_of_ok hq]
      rcases verdict_of_forM ht hg hfaithful hns with
        ⟨hall, hrest⟩ | ⟨⟨m, hm, hcm⟩, hrest⟩
      · exact Or.inl ⟨List.forall_mem_cons.2 ⟨hc, hall⟩, hrest⟩
      · exact Or.inr ⟨⟨m, List.mem_cons_of_mem n hm, hcm⟩, hrest⟩
    · refine Or.inr ⟨⟨n, List.mem_cons_self, hc⟩, fault, p, hfault, ?_⟩
      rw [Run.run_bind_of_error hq]

/-! ## Texts -/

/-- How a node with bounds reads once it is colored. -/
def boundsText (g : Graph) (t : BoundsTable) (n : NodeId) : String :=
  if (t.shown n).inter (t.permitted n) = .empty then "void"
  else g.typeText ((t.shown n).inter (t.permitted n)).reduced

/-- Leaves over the classes of a graph read in a larger graph as they do in the graph. -/
theorem typeText_eq {h : Graph} (hgh : ∀ c, g.kind c = .decl .classDecl → h.name? c = g.name? c) :
    ∀ {x : TypeSet}, ClassLeaf g x → h.typeText x = g.typeText x
  | .univ, _ | .empty, _ | .base _, _ | .anyOf _, _ => rfl
  | .arged b x, hx => by
    rw [Graph.typeText, Graph.typeText, typeText_eq (x := x) hgh hx]
  | .cls c, hc => by rw [Graph.typeText, Graph.typeText, hgh c hc]

theorem classLeaf_reduced (ht : t.Over (ClassLeaf g))
    (he : (t.shown n).inter (t.permitted n) ≠ .empty) :
    ClassLeaf g ((t.shown n).inter (t.permitted n)).reduced := by
  rcases (over_inter (ht.shown n) (ht.permitted n)).reduced
    (fun x y => classesIn_of_refines) he with hu | ⟨-, hx⟩
  · rw [hu]
    trivial
  · exact hx

/-- A color that fits the bounds of a node reads as these say. -/
theorem describeType_of_fits {h : Graph} {k : NodeId} (ht : t.Over (ClassLeaf g))
    (hgh : Graph.Extends (· ≠ .colored) g h) (hk : Fits ⟨t.shown n, t.permitted n⟩ h k) :
    h.describeType k = boundsText g t n := by
  rcases hk with ⟨he, hk⟩ | ⟨he, hk⟩
  · rw [boundsText, if_pos he]
    simp only [Graph.describeType, Graph.describeOver, hk]
  · rw [boundsText, if_neg he, Graph.describeType_eq hk]
    refine typeText_eq (fun c hc => ?_) (classLeaf_reduced ht he)
    have hhas : g.has c := Graph.has_of_kind hc (by decide)
    rw [Graph.name?, Graph.name?, hgh.payload c hhas]

/-! ## Tables under each other -/

section Same

variable {h : Graph} {T : BoundsTable} (ht : t.Over (ClassLeaf g)) (hT : T.Over (ClassLeaf g))
  (hup : t.Under T) (hdown : T.Under t)

include ht hT hup hdown

/-- Tables under each other leave the same to a node, up to refinement. -/
theorem inter_within_of_under (n : NodeId) :
    ((t.shown n).inter (t.permitted n)).Within ((T.shown n).inter (T.permitted n)) :=
  within_inter (hT.shown n).1 (hT.permitted n).1
    ((inter_within_left (ht.shown n).1 (ht.permitted n).1).trans (hup.shown n))
    ((inter_within_right (ht.shown n).1 (ht.permitted n).1).trans (hdown.permitted n))

theorem inter_eq_empty_of_under (he : (T.shown n).inter (T.permitted n) = .empty) :
    (t.shown n).inter (t.permitted n) = .empty :=
  within_empty (canonical_inter (ht.shown n).1 (ht.permitted n).1)
    (he ▸ inter_within_of_under ht hT hup hdown n)

theorem colorable_of_under (hvoid : mayYieldNothing g n → mayYieldNothing h n)
    (hc : Colorable g t n) : Colorable h T n :=
  hc.imp (fun hne he => hne (inter_eq_empty_of_under ht hT hup hdown he)) hvoid

/-- In tables under each other nodes read alike. -/
theorem boundsText_eq (hgh : ∀ c, g.kind c = .decl .classDecl → h.name? c = g.name? c)
    (n : NodeId) : boundsText h T n = boundsText g t n := by
  unfold boundsText
  by_cases he : (t.shown n).inter (t.permitted n) = .empty
  · rw [if_pos he, if_pos (inter_eq_empty_of_under hT ht hdown hup he)]
  · have he' : (T.shown n).inter (T.permitted n) ≠ .empty := fun he' =>
      he (inter_eq_empty_of_under ht hT hup hdown he')
    rw [if_neg he, if_neg he', typeText_eq hgh (classLeaf_reduced hT he'),
      reduced_eq (canonical_inter (hT.shown n).1 (hT.permitted n).1)
        (canonical_inter (ht.shown n).1 (ht.permitted n).1)
        (inter_within_of_under hT ht hdown hup n) (inter_within_of_under ht hT hup hdown n)]

end Same

end Palette

end TypeFlow
