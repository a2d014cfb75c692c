import TypeFlow.Proofs.Coloring.Denotes
import TypeFlow.Proofs.Graph.Rooted
import TypeFlow.Proofs.Run
/-!
# Annotations in a tree

In a tree an annotation is read to its end: its steps go down, and no way down is longer than the
graph is large (`annotationOver_succ`). So a type node of a tree denotes the same set in every graph
that still has the tree (`Extends.annotationSet_eq`).
-/

namespace TypeFlow

namespace Graph

variable {g h : Graph} {root n : NodeId} {R : Role → Prop}

/-- With steps for all nodes that are not above it, an annotation does not need another one. -/
theorem annotationOver_succ (hg : g.Rooted root) : ∀ (steps : Nat) {n : NodeId} {l : List NodeId},
    g.Below root n → Ancestors g n l → g.size ≤ steps + l.length →
      g.annotationOver (steps + 1) n = g.annotationOver steps n
  | 0, n, l, hn, hl, hsteps => by
    have hlength : (n :: l).length ≤ g.size :=
      length_le_size hl.nodup (List.forall_mem_cons.2 ⟨hg.has_below hn, hl.has hg.kept.balanced⟩)
    simp only [List.length_cons] at hlength
    omega
  | steps + 1, n, l, hn, hl, hsteps => by
    rw [annotationOver, annotationOver]
    rcases hm : g.child? n .arg with _ | m
    · simp only [requireChild, hm]
      rfl
    · have hl' : Ancestors g m (n :: l) := .step (hg.parents_of_child? hn hm rfl) hl
      have hm' : g.Below root m := hn.of_child? hm rfl
      have ih := annotationOver_succ hg steps hm' hl' (by rw [List.length_cons]; omega)
      simp only [requireChild, hm, Run.ok_bind, ih]

/-- An annotation of a tree has steps enough. -/
theorem annotationOver_of_size_le (hg : g.Rooted root) (hn : g.Below root n) :
    ∀ steps, g.size ≤ steps → g.annotationOver steps n = g.annotationSet n := by
  obtain ⟨l, hl⟩ := hg.exists_ancestors hn
  have hsize : ∀ steps, g.size ≤ steps → g.annotationOver steps n = g.annotationOver g.size n := by
    intro steps hsteps
    induction steps, hsteps using Nat.le_induction with
    | base => rfl
    | succ steps hle ih => rw [annotationOver_succ hg steps hn hl (by omega), ih]
  exact fun steps hsteps => (hsize steps hsteps).trans (hsize _ (Nat.le_succ _)).symm

/-- In a tree a container type denotes the container of what its argument denotes. -/
theorem annotationSet_generic (hg : g.Rooted root) (hn : g.Below root n)
    (hkind : g.kind n = .type .generic) {base arg : NodeId} (hbase : g.child? n .base = some base)
    (harg : g.child? n .arg = some arg) : g.annotationSet n = (do
      let b ← g.annotationBase base
      let x ← g.annotationSet arg
      argedSet b x) := by
  have hargSet := annotationOver_of_size_le hg (hn.of_child? harg rfl) g.size (Nat.le_refl _)
  rw [annotationSet, annotationOver, hkind]
  simp only [requireChild, hbase, harg, Run.ok_bind, hargSet]

/-- A larger graph has the steps of an annotation. -/
theorem Extends.annotationOver_eq (hgh : Extends R g h) (hbase : R .base) (harg : R .arg)
    (href : R .ref) (hg : g.Rooted root) : ∀ (steps : Nat) {n : NodeId}, g.Below root n →
      h.annotationOver steps n = g.annotationOver steps n
  | 0, _, _ => rfl
  | steps + 1, n, hn => by
    have hhas := hg.has_below hn
    have hparts : ∀ m, g.child? n .base = some m → h.annotationBase m = g.annotationBase m :=
      fun m hm => by
        rw [annotationBase, annotationBase, hgh.kind m (hg.has_below (hn.of_child? hm rfl))]
    have hargs : ∀ m, g.child? n .arg = some m →
        h.annotationOver steps m = g.annotationOver steps m :=
      fun m hm => hgh.annotationOver_eq hbase harg href hg steps (hn.of_child? hm rfl)
    rw [annotationOver, annotationOver, hgh.kind n hhas]
    simp only [requireChild, hgh.child n _ hhas hbase, hgh.child n _ hhas harg,
      hgh.child n _ hhas href]
    rcases hb : g.child? n .base with _ | b
    · rfl
    · rcases ha : g.child? n .arg with _ | a
      · simp only [Run.ok_bind, Run.error_bind, hparts b hb]
      · simp only [hparts b hb, hargs a ha, Run.ok_bind]

/-- A type node of a tree denotes the same set in a larger graph. -/
theorem Extends.annotationSet_eq (hgh : Extends R g h) (hbase : R .base) (harg : R .arg)
    (href : R .ref) (hg : g.Rooted root) (hn : g.Below root n) :
    h.annotationSet n = g.annotationSet n := by
  have hsize := hgh.size
  rw [annotationSet, hgh.annotationOver_eq hbase harg href hg _ hn,
    annotationOver_of_size_le hg hn (h.size + 1) (by omega)]

end Graph

end TypeFlow
