import TypeFlow.Proofs.Graph.Grows
import TypeFlow.Proofs.Graph.Hang
import TypeFlow.Proofs.Program.Shape
/-!
# The outline of a program

A program tree is outlined if its functions and classes stand where they may: classes among the
items of the program, functions there or among the items of a class (`Outlined`). So nothing below a
function has names of its own (`Hosted.not_host_below`), and the nearest host of such a node is the
function (`Hosted.nearest`). Before scopes are collected, a program has no locals and no ties
besides (`Unscoped`).
-/

namespace TypeFlow

namespace Program

/-- A function of the program, or of one of its classes, with the host around it. -/
inductive Hosted (g : Graph) (root : NodeId) : NodeId → NodeId → Prop
  | program {f : NodeId} (hf : f ∈ g.items root) (hkind : g.kind f = .decl .function) :
    Hosted g root root f
  | method {cls f : NodeId} (hcls : cls ∈ g.items root) (hclass : g.kind cls = .decl .classDecl)
    (hf : f ∈ g.items cls) (hkind : g.kind f = .decl .function) : Hosted g root cls f

/-- A program tree whose functions and classes stand where they may. -/
structure Outlined (g : Graph) (root : NodeId) : Prop extends g.Rooted root where
  program : g.kind root = .decl .program
  items : ∀ m ∈ g.items root, g.kind m = .decl .function ∨ g.kind m = .decl .classDecl
  hosts : ∀ n, g.Below root n → (g.kind n).isScopeHost → n = root ∨ n ∈ g.items root ∨
    g.kind n = .decl .function ∧
      ∃ cls ∈ g.items root, g.kind cls = .decl .classDecl ∧ n ∈ g.items cls

/-- Declarations that the parser names. -/
def isDeclaration : NodeKind → Bool
  | .decl .function | .decl .classDecl | .decl .param | .decl .field => true
  | _ => false

/-- A program tree before its scopes are collected: no locals and no ties yet, and nodes that are
numbered by 32 bits. -/
structure Unscoped (g : Graph) (root : NodeId) : Prop extends Outlined g root where
  untied : g.Untied
  bare : ∀ n, g.child? n .locals = none
  small : g.size ≤ 2 ^ 32
  body : ∀ n, g.Below root n → g.kind n = .decl .function → g.hasChild n .body
  named : ∀ n, g.Below root n → isDeclaration (g.kind n) → (g.name? n).isSome

/-! ## Deciding it -/

theorem outlined_iff {g : Graph} {root : NodeId} : Outlined g root ↔
    (∀ i < g.size, KeptAt g ⟨i⟩) ∧ g.has root ∧ g.parents root = [] ∧
      g.kind root = .decl .program ∧
      (∀ m ∈ g.items root, g.kind m = .decl .function ∨ g.kind m = .decl .classDecl) ∧
      ∀ n ∈ g.reachable root fun _ => true, (g.parents n).length ≤ 1 ∧
        ((g.kind n).isScopeHost → n = root ∨ n ∈ g.items root ∨ g.kind n = .decl .function ∧
          ∃ cls ∈ g.items root, g.kind cls = .decl .classDecl ∧ n ∈ g.items cls) := by
  simp only [← wellKept_iff, Graph.mem_reachable, and_true]
  exact ⟨fun h => ⟨h.kept, h.has, h.top, h.program, h.items,
      fun n hn => ⟨h.tree n hn, h.hosts n hn⟩⟩,
    fun ⟨hkept, hhas, htop, hprogram, hitems, h⟩ =>
      ⟨⟨hkept, hhas, htop, fun n hn => (h n hn).1⟩, hprogram, hitems, fun n hn => (h n hn).2⟩⟩

instance (g : Graph) (root : NodeId) : Decidable (Outlined g root) :=
  decidable_of_iff _ outlined_iff.symm

/-- Outside the graph no node has locals. -/
theorem bare_iff {g : Graph} :
    (∀ n, g.child? n .locals = none) ↔ ∀ i < g.size, g.child? ⟨i⟩ .locals = none := by
  refine ⟨fun h i _ => h ⟨i⟩, fun h n => ?_⟩
  by_cases hn : g.has n = true
  · exact h n.index (by simpa [Graph.has] using hn)
  · simp [Graph.child?, Graph.outgoing_of_not_has (by simpa using hn)]

theorem unscoped_iff {g : Graph} {root : NodeId} : Unscoped g root ↔
    Outlined g root ∧ g.Untied ∧ (∀ i < g.size, g.child? ⟨i⟩ .locals = none) ∧ g.size ≤ 2 ^ 32 ∧
      ∀ n ∈ g.reachable root fun _ => true,
        (g.kind n = .decl .function → g.hasChild n .body) ∧
          (isDeclaration (g.kind n) → (g.name? n).isSome) := by
  simp only [← bare_iff, Graph.mem_reachable, and_true]
  exact ⟨fun h => ⟨h.toOutlined, h.untied, h.bare, h.small,
      fun n hn => ⟨h.body n hn, h.named n hn⟩⟩,
    fun ⟨houtlined, huntied, hbare, hsmall, h⟩ =>
      ⟨houtlined, huntied, hbare, hsmall, fun n hn => (h n hn).1, fun n hn => (h n hn).2⟩⟩

instance (g : Graph) (root : NodeId) : Decidable (Unscoped g root) :=
  decidable_of_iff _ unscoped_iff.symm

/-! ## Hosts -/

variable {g : Graph} {root host host' f m n : NodeId}

namespace Hosted

theorem kind (h : Hosted g root host f) : g.kind f = .decl .function := by
  cases h <;> assumption

theorem mem_items (h : Hosted g root host f) : f ∈ g.items host := by
  cases h <;> assumption

theorem root_or_class (h : Hosted g root host f) :
    host = root ∨ host ∈ g.items root ∧ g.kind host = .decl .classDecl := by
  cases h with
  | program => exact Or.inl rfl
  | method hcls hclass => exact Or.inr ⟨hcls, hclass⟩

theorem below_host (h : Hosted g root host f) : g.Below root host := by
  rcases h.root_or_class with rfl | ⟨hitem, -⟩
  · exact .root
  · exact Graph.Below.root.of_mem_items hitem

theorem below (h : Hosted g root host f) : g.Below root f := h.below_host.of_mem_items h.mem_items

end Hosted

namespace Outlined

variable (h : Outlined g root)
include h

theorem kind_host (hf : Hosted g root host f) :
    g.kind host = .decl .program ∨ g.kind host = .decl .classDecl := by
  rcases hf.root_or_class with rfl | ⟨-, hclass⟩
  · exact Or.inl h.program
  · exact Or.inr hclass

theorem host_ne (hf : Hosted g root host f) : host ≠ f := by
  rintro rfl
  rcases h.kind_host hf with hkind | hkind <;> simp [hf.kind] at hkind

theorem ne_root (hf : Hosted g root host f) : f ≠ root := by
  rintro rfl
  cases hf.kind.symm.trans h.program

theorem parents_of_hosted (hf : Hosted g root host f) : g.parents f = [host] :=
  h.parents_of_mem_items hf.below_host hf.mem_items

/-- A function has one host. -/
theorem host_unique (hf : Hosted g root host f) (hf' : Hosted g root host' f) : host = host' :=
  List.singleton_inj.1 ((h.parents_of_hosted hf).symm.trans (h.parents_of_hosted hf'))

/-- Nothing below a function has names of its own. -/
theorem not_host_below (hf : Hosted g root host f) (hm : g.Below f m) (hne : m ≠ f) :
    (g.kind m).isScopeHost = false := by
  by_contra hhost
  have hroot : ¬g.Below f root := fun hb => h.ne_root hf (h.eq_root_of_below hf.below hb)
  have hitem : ∀ x, g.Below f x → x ≠ f → x ∉ g.items root := fun x hx hxf hmem =>
    hroot (h.below_parent hf.below hx hxf (h.parents_of_mem_items .root hmem))
  rcases h.hosts m (hf.below.trans hm) (by simpa using hhost) with rfl | hmem |
    ⟨-, cls, hcls, hclass, hmem⟩
  · exact hroot hm
  · exact hitem m hm hne hmem
  · have hparents := h.parents_of_mem_items (Graph.Below.root.of_mem_items hcls) hmem
    refine hitem cls (h.below_parent hf.below hm hne hparents) ?_ hcls
    rintro rfl
    simp [hf.kind] at hclass

/-- The nearest host of a node below a function is the function. -/
theorem nearest_host (hf : Hosted g root host f) (hn : g.Below f n) (hne : n ≠ f) :
    (g.nearestAncestor? n fun m => (g.kind m).isScopeHost) = some f := by
  refine h.nearestAncestor?_eq hf.below hn hne ?_ fun m hm hmf => h.not_host_below hf hm hmf
  rw [hf.kind]
  rfl

end Outlined

/-! ## New nodes -/

section Hang

variable {s : NodeId} {r : Role} {k : NodeKind} {p : Payload}

/-- A node that hangs from another kind of node, or not as an item, leaves the items of hosts
alone. -/
theorem items_hang (hs : g.has s) (hr : r.isItem → g.kind s = .decl .scope)
    (hm : g.kind m ≠ .decl .scope) : (g.hang s r k p).items m = g.items m := by
  unfold Graph.items Graph.itemEdges
  rw [Graph.outgoing_hang hs]
  split
  · next hms =>
    have hitem : r.isItem = false := by
      by_contra hr'
      exact hm (hms ▸ hr (by simpa using hr'))
    simp [hitem]
  · rfl

theorem Outlined.hang (h : Outlined g root) (hs : g.has s) (hnone : g.child? s r = none)
    (hstr : r.isStructural) (hr : r.isItem → g.kind s = .decl .scope)
    (hk : k.isScopeHost = false) : Outlined (g.hang s r k p) root := by
  have hkind : ∀ m, g.has m → (g.hang s r k p).kind m = g.kind m := fun m hm => by
    rw [Graph.kind_hang, if_neg (Graph.ne_fresh hm)]
  have hitems : ∀ m, (g.kind m).isScopeHost → (g.hang s r k p).items m = g.items m := by
    refine fun m hm => items_hang hs hr fun hscope => ?_
    rw [hscope] at hm
    cases hm
  have hitem : ∀ {m x}, x ∈ g.items m → g.has x := fun hx => h.kept.has_item hx
  have hroot := hitems root (by rw [h.program]; rfl)
  refine { h.toRooted.hang hs hnone hstr with program := ?_, items := ?_, hosts := ?_ }
  · rw [hkind root h.has, h.program]
  · intro m hm
    rw [hroot] at hm
    rw [hkind m (hitem hm)]
    exact h.items m hm
  · intro n hn hhost
    rcases Graph.below_of_hang hs hn with hn | ⟨rfl, -⟩
    · rw [hkind n (h.has_below hn)] at hhost ⊢
      rw [hroot]
      refine (h.hosts n hn hhost).imp_right (Or.imp_right (And.imp_right ?_))
      rintro ⟨cls, hcls, hclass, hmem⟩
      exact ⟨cls, hcls, (hkind cls (hitem hcls)).trans hclass,
        by rwa [hitems cls (by rw [hclass]; rfl)]⟩
    · rw [Graph.kind_hang, if_pos rfl, hk] at hhost
      cases hhost

end Hang

end Program

end TypeFlow
