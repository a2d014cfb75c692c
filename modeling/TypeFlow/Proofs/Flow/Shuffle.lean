import TypeFlow.Proofs.Flow.Reads
import TypeFlow.Proofs.Program.Shuffle
/-!
# Rules on shuffled programs

The rules read no lists of statements, so that a program reads alike to them when its statements
stand in another order (`Graph.Shuffles.readsAs`).
-/

namespace TypeFlow

open Program

namespace Graph.Shuffles

variable {g h : Graph} {root : NodeId} (hs : Shuffles g h)

include hs

theorem requireChild_eq (hg : g.WellKept) (n : NodeId) {r : Role} (hr : r.isItem = false) :
    h.requireChild n r = g.requireChild n r := by
  rw [requireChild, requireChild, hs.child?_eq hg n hr]

theorem annotationOver_eq (hg : g.WellKept) (depth : Nat) (n : NodeId) :
    h.annotationOver depth n = g.annotationOver depth n := by
  induction depth generalizing n with
  | zero => rfl
  | succ depth ih =>
    simp only [annotationOver, annotationBase, hs.kind, ih,
      hs.requireChild_eq hg n (r := .base) rfl, hs.requireChild_eq hg n (r := .arg) rfl,
      hs.requireChild_eq hg n (r := .ref) rfl]

/-- Annotations denote the same sets. -/
theorem annotationSet_eq (hg : g.WellKept) (n : NodeId) :
    h.annotationSet n = g.annotationSet n := by
  rw [annotationSet, annotationSet, hs.size, hs.annotationOver_eq hg]

/-- Methods are found in the same order. -/
theorem classMethods_eq (hg : Resolved g root) :
    Flow.classMethods h root = Flow.classMethods g root :=
  hs.reachable_functions_eq hg (fun n hn => by simpa using (Bool.and_eq_true_iff.1 hn).1)
    fun n hn => by simp only [hs.kind, hs.parents_eq hg hn]

/-- A shuffled program reads alike. -/
theorem readsAs (hg : Resolved g root) : Flow.ReadsAs g h root where
  below := hs.below_iff root
  kind n _ := hs.kind n
  name n _ := hs.name?_eq n
  child n _ _ hr _ := hs.child?_eq hg.kept n hr
  items _ _ hk := hs.items_eq hg.kept hk
  parents _ hn _ _ := hs.parents_eq hg hn
  annotation n _ := hs.annotationSet_eq hg.kept n
  enclosingClass _ hn _ := hs.enclosing?_eq hg hn .classDecl
  enclosingFunction _ hn _ := hs.enclosing?_eq hg hn .function
  methods := hs.classMethods_eq hg

end Graph.Shuffles

end TypeFlow
