import TypeFlow.Flow.Site
import TypeFlow.Proofs.Graph.Rooted
import TypeFlow.Proofs.Program.Shape
/-!
# Moving about a resolved program

From a node of a resolved program, the steps that inference takes lead to nodes of the program: to
its children (`below_child`), its parents (`below_parent`), the declarations around it
(`below_enclosing`) and its definition (`Resolved.tied`), and their kinds are known from the roles.
-/

namespace TypeFlow

namespace Program

theorem isTypable_of_isValue {k : NodeKind} (h : isValue k) : k.isTypable := by
  cases k with
  | expr k => cases k <;> simp_all [isValue, NodeKind.isTypable]
  | _ => cases h

theorem fits_returnSlot {k : NodeKind} :
    fits (.decl .function) .returnSlot k ↔ k = .decl .returnSlot := decide_eq_true_iff

/-- Only functions have declared results. -/
theorem isFunction_of_fits {k k' : NodeKind} (h : fits k .returnType k') :
    k = .decl .function := by
  cases k with
  | decl k => cases k <;> first | rfl | cases h
  | stmt k => cases k <;> cases h
  | expr k => cases k <;> cases h
  | type k => cases k <;> cases h
  | _ => cases h

namespace Resolved

variable {g : Graph} {root n m d : NodeId} {r : Role}

theorem has_root (h : Resolved g root) : g.has root := Graph.has_of_kind h.program nofun

/-- The nodes of a program form a tree. -/
theorem rooted (h : Resolved g root) : g.Rooted root := ⟨h.kept, h.has_root, h.top, h.tree⟩

theorem has_below (h : Resolved g root) (hn : g.Below root n) : g.has n := h.rooted.has_below hn

theorem below_child (_ : Resolved g root) (hn : g.Below root n) (hm : g.child? n r = some m)
    (hr : r.isStructural) : g.Below root m := hn.of_child? hm hr

/-- The parents of a node of a program belong to the program. -/
theorem below_parent (h : Resolved g root) (hn : g.Below root n) (hm : m ∈ g.parents n) :
    g.Below root m := by
  cases hn with
  | root =>
    rw [h.top] at hm
    cases hm
  | child hk he hs =>
    rw [h.rooted.parents_eq hk he hs, List.mem_singleton] at hm
    rwa [hm]

theorem below_enclosing {kind : DeclKind} (h : Resolved g root) (hn : g.Below root n)
    (hm : Flow.enclosing? g n kind = some m) : g.Below root m ∧ g.kind m = .decl kind := by
  obtain ⟨hbelow, -, hkind⟩ :=
    Graph.nearestAncestor?_sound (P := g.Below root) (fun _ hk _ hp => h.below_parent hk hp) hn hm
  exact ⟨hbelow, by simpa using hkind⟩

/-- A child fits its role. -/
theorem fits_child (h : Resolved g root) (hn : g.Below root n) (hm : g.child? n r = some m)
    (hr : r.isStructural) : Program.fits (g.kind n) r (g.kind m) :=
  h.fits n hn ⟨r, m⟩ (Graph.mem_of_child? hm) hr

/-- An item fits its list. -/
theorem fits_item (h : Resolved g root) (hn : g.Below root n) (hm : m ∈ g.items n) :
    ∃ i, Program.fits (g.kind n) (.item i) (g.kind m) := by
  obtain ⟨r, hr, he⟩ := Graph.mem_items.1 hm
  cases r with
  | item i => exact ⟨i, h.fits n hn ⟨.item i, m⟩ he rfl⟩
  | _ => cases hr

end Resolved

end Program

end TypeFlow
