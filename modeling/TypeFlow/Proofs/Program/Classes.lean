import TypeFlow.Proofs.Coloring.Denotes
import TypeFlow.Proofs.Flow.Depth
import TypeFlow.Proofs.Program.Tree
/-!
# The classes of a program

In a resolved program, inference comes to classes of the program only (`leafFamily_classes`): an
object is one of a class of the program, and so is what a named type stands for.
-/

namespace TypeFlow

open TypeSet

namespace Program

variable {g : Graph} {root n : NodeId} {t : BoundsTable}

/-- A class of the program below a root. -/
def IsClass (g : Graph) (root n : NodeId) : Prop := g.Below root n ∧ g.kind n = .decl .classDecl

/-- A leaf all of whose classes belong to the program. -/
abbrev ClassLeaf (g : Graph) (root : NodeId) : TypeSet → Prop := ClassesIn (IsClass g root)

theorem over_annotationSet {a : TypeSet} (h : Resolved g root) (hn : g.Below root n)
    (ha : g.annotationSet n = .ok a) : TypeSet.Over (ClassLeaf g root) a := by
  refine over_annotationOver (S := g.Below root) (P := fun _ => ClassLeaf g root)
    (fun n m hn hm => h.below_child hn hm rfl) (fun _ _ => trivial) (fun _ n c hn hkind hc => ?_)
    (fun _ _ _ hx => hx) hn ha
  obtain ⟨hbelow, hrefers⟩ := h.tied n hn c hc
  rw [hkind] at hrefers
  exact ⟨hbelow, by simpa [refersTo] using hrefers⟩

/-- The leaves over the classes of a program are closed at the nodes of the program. -/
theorem leafFamily_classes (h : Resolved g root) :
    LeafFamily g (g.Below root) (ClassLeaf g root) where
  base _ := trivial
  arg _ _ hx := hx
  created n c hn hkind hc := by
    obtain ⟨hbelow, hrefers⟩ := h.tied n hn c hc
    rw [hkind] at hrefers
    exact ⟨hbelow, by simpa [refersTo] using hrefers⟩
  enclosing n c hn hc := h.below_enclosing hn hc
  declared n type a hn htype ha := over_annotationSet h (h.below_child hn htype rfl) ha
  returned n type a hn htype ha := over_annotationSet h (h.below_child hn htype rfl) ha
  called n f hn _ hf := (h.tied n hn f hf).1
  parent n m hn hm := h.below_parent hn hm
  member c m hc hm := hc.1.of_mem_items hm

/-- A container of elements has no classes but theirs. -/
theorem literalsOver {K : NodeId → Prop} (ht : t.Over (ClassesIn K)) :
    Flow.LiteralsOver g (ClassesIn K) t := by
  intro n b joined hb hjoined
  have hover := Flow.over_joinElements ht over_empty hjoined
  have hproper := Flow.proper_containerOf (Flow.isContainer_of_literalContainer? hb) hover.1
  refine Proper.over hproper ?_
  rcases Flow.containerOf_eq hover.1 b with hc | ⟨s, hc, hu, -, x, hx, hxs⟩
  · rw [hc]
    trivial
  · rw [hc]
    exact classesIn_of_refines (y := s) (hover.2 hu x hx) hxs

end Program

end TypeFlow
