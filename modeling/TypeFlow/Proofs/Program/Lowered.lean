import TypeFlow.Proofs.Program.Outline
/-!
# Lowered programs

A lowered program is without surface forms: every node has the parts that its kind has, each of a
fitting kind, while nothing is tied to a definition yet (`Program.Lowered`). Hanging new nodes into
it where they fit keeps its form (`Formed.hang`).
-/

namespace TypeFlow

namespace Program

/-- Every node has the parts of its kind, apart from ties. Objects are made by ties only. -/
structure Formed (g : Graph) (root : NodeId) : Prop where
  fits : ∀ n, g.Below root n → ∀ e ∈ g.outgoing n, e.role.isStructural →
    fits (g.kind n) e.role (g.kind e.node)
  complete : ∀ n, g.Below root n → ∀ r ∈ required (g.kind n), r ≠ .ref → g.hasChild n r
  reads : ∀ n, g.Below root n → isNamed (g.kind n) → (g.name? n).isSome
  calls : ∀ n, g.Below root n → g.kind n ≠ .expr .objectInit

/-- A program without surface forms, before its scopes are collected and its references tied. -/
structure Lowered (g : Graph) (root : NodeId) : Prop extends Unscoped g root, Formed g root

/-! ## Deciding it -/

theorem formed_iff {g : Graph} {root : NodeId} : Formed g root ↔
    ∀ n ∈ g.reachable root fun _ => true,
      (∀ e ∈ g.outgoing n, e.role.isStructural → fits (g.kind n) e.role (g.kind e.node)) ∧
        (∀ r ∈ required (g.kind n), r ≠ .ref → g.hasChild n r) ∧
        (isNamed (g.kind n) → (g.name? n).isSome) ∧ g.kind n ≠ .expr .objectInit := by
  simp only [Graph.mem_reachable, and_true]
  exact ⟨fun h n hn => ⟨h.fits n hn, h.complete n hn, h.reads n hn, h.calls n hn⟩,
    fun h => ⟨fun n hn => (h n hn).1, fun n hn => (h n hn).2.1, fun n hn => (h n hn).2.2.1,
      fun n hn => (h n hn).2.2.2⟩⟩

instance (g : Graph) (root : NodeId) : Decidable (Formed g root) :=
  decidable_of_iff _ formed_iff.symm

instance (g : Graph) (root : NodeId) : Decidable (Lowered g root) :=
  decidable_of_iff (Unscoped g root ∧ Formed g root)
    ⟨fun h => ⟨h.1, h.2⟩, fun h => ⟨h.toUnscoped, h.toFormed⟩⟩

/-! ## New nodes -/

section Hang

variable {g : Graph} {root s : NodeId} {r : Role} {k : NodeKind} {p : Payload}

/-- A node without parts may hang where it fits. -/
theorem Formed.hang (h : Formed g root) (hg : g.Rooted root) (hs : g.has s)
    (hnone : g.child? s r = none) (hfits : Program.fits (g.kind s) r k)
    (hrequired : required k = []) (hnamed : isNamed k = false) (hk : k ≠ .expr .objectInit) :
    Formed (g.hang s r k p) root := by
  have hkind : ∀ m, g.has m → (g.hang s r k p).kind m = g.kind m := fun m hm => by
    rw [Graph.kind_hang, if_neg (Graph.ne_fresh hm)]
  have hfresh : (g.hang s r k p).kind g.fresh = k := by rw [Graph.kind_hang, if_pos rfl]
  refine ⟨fun n hn e he hstr => ?_, fun n hn q hq href => ?_, fun n hn hname => ?_, fun n hn => ?_⟩
  · rw [Graph.outgoing_hang hs] at he
    rcases Graph.below_of_hang hs hn with hn | ⟨rfl, -⟩
    · rw [hkind n (hg.has_below hn)]
      have hold : ∀ e ∈ g.outgoing n, e.role.isStructural →
          Program.fits (g.kind n) e.role ((g.hang s r k p).kind e.node) := fun e he hstr => by
        rw [hkind _ (hg.kept.has_target he)]
        exact h.fits n hn e he hstr
      split at he
      · next hns =>
        rcases List.mem_append.1 he with he | he
        · exact hold e he hstr
        · obtain rfl := List.mem_singleton.1 he
          rwa [hfresh, hns]
      · exact hold e he hstr
    · rw [if_neg (Graph.ne_fresh hs).symm, Graph.outgoing_of_not_has Graph.has_fresh] at he
      cases he
  · rcases Graph.below_of_hang hs hn with hn | ⟨rfl, -⟩
    · rw [hkind n (hg.has_below hn)] at hq
      have hchild := h.complete n hn q hq href
      rw [Graph.hasChild, Graph.child?_hang hs hnone]
      split
      · rfl
      · exact hchild
    · rw [hfresh, hrequired] at hq
      cases hq
  · rcases Graph.below_of_hang hs hn with hn | ⟨rfl, -⟩
    · rw [hkind n (hg.has_below hn)] at hname
      rw [Graph.name?, Graph.payload_hang, if_neg (Graph.ne_fresh (hg.has_below hn))]
      exact h.reads n hn hname
    · rw [hfresh, hnamed] at hname
      cases hname
  · rcases Graph.below_of_hang hs hn with hn | ⟨rfl, -⟩
    · rw [hkind n (hg.has_below hn)]
      exact h.calls n hn
    · rwa [hfresh]

end Hang

end Program

end TypeFlow
