import TypeFlow.Coloring
import TypeFlow.Proofs.Run
/-!
# Painting one node

The outcome of coloring a node, by what its bounds allow: a malformed set and a value that is not
permitted stop it, and otherwise it succeeds with a palette computed without faults.
-/

namespace TypeFlow

namespace Palette

variable {t : BoundsTable} {n : NodeId} {b : Bounds} {p p' q : Palette} {a : TypeSet}
  {type : NodeId}

/-- Paint a node as void. -/
def paintVoid (n : NodeId) : Mix Unit := do
  countVoid
  paint n (← voidNode)

/-- Paint a node with the type node of a set. -/
def paintType (n : NodeId) (a : TypeSet) : Mix Unit := do
  let type ← typeNode a
  countDynamic type
  paint n type

theorem run_paint : (paint n type).run p =
    ((), { p with
      graph := p.graph.setChild n .colored type
      stats := { p.stats with colored := p.stats.colored + 1 } }) := rfl

theorem run_countDynamic (type : NodeId) (p : Palette) :
    ∃ stats, (countDynamic type).run p = ((), { p with stats := stats }) := by
  by_cases h : p.graph.kind type = .type .dynamic
  · refine ⟨{ p.stats with dynamic := p.stats.dynamic + 1 }, ?_⟩
    change ((), if p.graph.kind type = .type .dynamic then _ else p) = _
    rw [if_pos h]
  · refine ⟨p.stats, ?_⟩
    change ((), if p.graph.kind type = .type .dynamic then _ else p) = _
    rw [if_neg h]

/-- A node is counted as void before it is painted. -/
theorem run_paintVoid
    (h : voidNode.run { p with stats := { p.stats with void := p.stats.void + 1 } } = (type, q)) :
    (paintVoid n).run p = (paint n type).run q := by
  have hrun : (paintVoid n).run p = (voidNode >>= paint n).run
      { p with stats := { p.stats with void := p.stats.void + 1 } } := rfl
  rw [hrun, StateT.run_bind, h]
  rfl

/-- A node is counted as dynamic, if it is, before it is painted. -/
theorem run_paintType (h : (typeNode a).run p = (type, q)) :
    (paintType n a).run p = (paint n type).run ((countDynamic type).run q).2 := by
  rw [paintType, StateT.run_bind, h]
  rfl

theorem run_colorBounds_malformed {cause : TypeSet.Malformed} (h : b.valid = .error cause) :
    (colorBounds n b).run p = (.error (.malformedSet cause), p) := by
  simp only [colorBounds, h]
  rfl

theorem run_colorBounds_void (h : b.valid = .ok .empty) (hm : mayYieldNothing p.graph n = true) :
    (colorBounds n b).run p = (.ok (), ((paintVoid n).run p).2) := by
  simp only [colorBounds, h, Run.run_bind, Run.run_get, hm]
  rfl

theorem run_colorBounds_nothing (h : b.valid = .ok .empty)
    (hm : mayYieldNothing p.graph n = false) : (colorBounds n b).run p =
      (.error (.noConsistentType n (p.graph.kind n) b.shown b.permitted), p) := by
  simp only [colorBounds, h, Run.run_bind, Run.run_get, hm]
  rfl

theorem run_colorBounds_type (h : b.valid = .ok a) (ha : a ≠ .empty) :
    (colorBounds n b).run p = (.ok (), ((paintType n a).run p).2) := by
  simp only [colorBounds, h]
  cases a <;> first | exact absurd rfl ha | rfl

/-- A node without bounds is left as it is. -/
theorem run_color_unbound (h : t.of? n = none) : (color t n).run p = (.ok (), p) := by
  simp only [color, h]
  rfl

theorem run_color_bound (h : t.of? n = some b) : (color t n).run p = (colorBounds n b).run p := by
  simp only [color, h]

/-- What can go wrong when a node is colored. -/
theorem fault_of_color {fault : Fault} (h : (color t n).run p = (.error fault, p')) :
    (∃ cause, fault = .malformedSet cause) ∨
      ∃ b, t.of? n = some b ∧ b.valid = .ok .empty ∧ mayYieldNothing p.graph n = false ∧
        fault = .noConsistentType n (p.graph.kind n) b.shown b.permitted := by
  cases hb : t.of? n with
  | none =>
    rw [run_color_unbound hb] at h
    simp at h
  | some b =>
    rw [run_color_bound hb] at h
    rcases hv : b.valid with cause | a
    · rw [run_colorBounds_malformed hv] at h
      obtain ⟨rfl, -⟩ : fault = .malformedSet cause ∧ _ := by simpa [eq_comm] using h
      exact Or.inl ⟨cause, rfl⟩
    · by_cases ha : a = .empty
      · subst ha
        by_cases hm : mayYieldNothing p.graph n
        · rw [run_colorBounds_void hv hm] at h
          simp at h
        · have hm : mayYieldNothing p.graph n = false := by simpa using hm
          rw [run_colorBounds_nothing hv hm] at h
          have hfault := (Run.outcome_eq.1 h).1
          exact Or.inr ⟨b, rfl, hv, hm, (Except.error.inj hfault).symm⟩
      · rw [run_colorBounds_type hv ha] at h
        simp at h

/-- What can go wrong when nodes are colored. -/
theorem fault_of_forM_color {fault : Fault} : ∀ {nodes : List NodeId} {p : Palette},
    (nodes.forM (color t)).run p = (.error fault, p') → (∃ cause, fault = .malformedSet cause) ∨
      ∃ n ∈ nodes, ∃ kind b, t.of? n = some b ∧ b.valid = .ok .empty ∧
        fault = .noConsistentType n kind b.shown b.permitted
  | [], p, h => by simp at h
  | n :: ns, p, h => by
    rw [List.forM_eq_forM, List.forM_cons, Run.run_bind_eq_error] at h
    rcases h with h | ⟨_, q, -, h⟩
    · rcases fault_of_color h with h | ⟨b, hb, hv, -, rfl⟩
      · exact Or.inl h
      · exact Or.inr ⟨n, by simp, _, b, hb, hv, rfl⟩
    · rcases fault_of_forM_color h with h | ⟨m, hm, h⟩
      · exact Or.inl h
      · exact Or.inr ⟨m, by simp [hm], h⟩

end Palette

/-- Coloring nodes is coloring them one by one, from a palette without colors. -/
theorem Graph.run_colorAll (t : BoundsTable) (nodes : List NodeId) (g : Graph) :
    (Graph.colorAll t nodes).run g =
      (((nodes.forM (Palette.color t)).run (Palette.ofGraph g)).1.map fun _ =>
        ((nodes.forM (Palette.color t)).run (Palette.ofGraph g)).2.stats,
      ((nodes.forM (Palette.color t)).run (Palette.ofGraph g)).2.graph) := rfl

/-- A coloring ends well if all its nodes can be colored one after the other. -/
theorem Graph.run_colorAll_eq_ok {t : BoundsTable} {nodes : List NodeId} {g g' : Graph}
    {colors : ColorStats} : (Graph.colorAll t nodes).run g = (.ok colors, g') ↔
      ∃ p, (nodes.forM (Palette.color t)).run (Palette.ofGraph g) = (.ok (), p) ∧
        p.stats = colors ∧ p.graph = g' := by
  rw [run_colorAll]
  rcases (nodes.forM (Palette.color t)).run (Palette.ofGraph g) with ⟨fault | _, p⟩
  · simp [Except.map]
  · simp [Except.map]

end TypeFlow
