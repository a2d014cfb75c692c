import TypeFlow.Proofs.Coloring.Paint
/-!
# Shared type nodes

A palette forgets no type node (`Palette.Keeps`), and what it answers for a set it answers for it
from then on (`Palette.Recalls`). So equal sets get one node, wherever they come up
(`recalls_typeNode`, `Recalls.unique`).
-/

namespace TypeFlow

namespace Palette

variable {p p' p'' : Palette} {n k l : NodeId} {a : TypeSet} {op make : Mix NodeId}

/-! ## What is remembered -/

/-- A palette has a node for a set. A class is its own. -/
def Recalls (p : Palette) : TypeSet → NodeId → Prop
  | .empty, k => p.void? = some k
  | .cls decl, k => k = decl
  | a, k => p.made.lookup a = some k

/-- A palette has one node for a set at most. -/
theorem Recalls.unique (hk : p.Recalls a k) (hl : p.Recalls a l) : k = l := by
  cases a with
  | cls decl => exact Eq.trans hk (Eq.symm hl)
  | _ => exact Option.some.inj (Eq.trans (Eq.symm hk) hl)

/-- The second palette has every node that the first one has. -/
structure Keeps (p p' : Palette) : Prop where
  made : ∀ a k, p.made.lookup a = some k → p'.made.lookup a = some k
  void : ∀ k, p.void? = some k → p'.void? = some k

namespace Keeps

theorem refl (p : Palette) : Keeps p p := ⟨fun _ _ h => h, fun _ h => h⟩

theorem trans (h : Keeps p p') (h' : Keeps p' p'') : Keeps p p'' :=
  ⟨fun a k hk => h'.made a k (h.made a k hk), fun k hk => h'.void k (h.void k hk)⟩

/-- Only the nodes that are remembered matter. -/
theorem of_eq (hmade : p'.made = p.made) (hvoid : p'.void? = p.void?) : Keeps p p' :=
  ⟨fun a k hk => by rwa [hmade], fun k hk => by rwa [hvoid]⟩

theorem recalls (h : Keeps p p') (hk : p.Recalls a k) : p'.Recalls a k := by
  cases a with
  | empty => exact h.void k hk
  | cls decl => exact hk
  | _ => exact h.made _ k hk

end Keeps

/-! ## Making type nodes -/

theorem run_remember : (remember a make).run p =
    match p.made.lookup a with
    | some n => (n, p)
    | none => ((make.run p).1,
      { (make.run p).2 with made := (a, (make.run p).1) :: (make.run p).2.made }) := by
  rw [remember, StateT.run_bind, StateT.run_get, pure_bind]
  cases p.made.lookup a <;> rfl

theorem run_voidNode : voidNode.run p =
    match p.void? with
    | some n => (n, p)
    | none => (p.graph.fresh,
      { p with graph := p.graph.add (.type .void) .none, void? := some p.graph.fresh }) := by
  rw [voidNode, StateT.run_bind, StateT.run_get, pure_bind]
  cases p.void? <;> rfl

theorem keeps_onGraph (step : Build NodeId) (p : Palette) : Keeps p ((onGraph step).run p).2 :=
  .of_eq rfl rfl

theorem keeps_bind {f : NodeId → Mix NodeId} (hop : ∀ p, Keeps p (op.run p).2)
    (hf : ∀ n p, Keeps p ((f n).run p).2) (p : Palette) : Keeps p ((op >>= f).run p).2 :=
  (hop p).trans (hf _ _)

/-- A node is remembered only for a set that has none yet. -/
theorem keeps_remember (hmake : ∀ p, Keeps p (make.run p).2) (a : TypeSet) (p : Palette) :
    Keeps p ((remember a make).run p).2 := by
  rw [run_remember]
  cases hl : p.made.lookup a with
  | some n => exact .refl p
  | none =>
    refine ⟨fun b k hk => ?_, (hmake p).void⟩
    have hba : b ≠ a := by
      rintro rfl
      cases hl.symm.trans hk
    rw [List.lookup_cons, beq_false_of_ne hba]
    exact (hmake p).made b k hk

theorem lookup_remember (a : TypeSet) (make : Mix NodeId) (p : Palette) :
    ((remember a make).run p).2.made.lookup a = some ((remember a make).run p).1 := by
  rw [run_remember]
  cases hl : p.made.lookup a with
  | some n => exact hl
  | none => simp

theorem keeps_voidNode (p : Palette) : Keeps p (voidNode.run p).2 := by
  rw [run_voidNode]
  cases hv : p.void? with
  | some n => exact .refl p
  | none => exact ⟨fun _ _ h => h, fun k hk => by cases hv.symm.trans hk⟩

theorem void?_voidNode (p : Palette) : (voidNode.run p).2.void? = some (voidNode.run p).1 := by
  rw [run_voidNode]
  cases hv : p.void? with
  | some n => exact hv
  | none => rfl

theorem keeps_leafNode : ∀ (a : TypeSet) (p : Palette), Keeps p ((leafNode a).run p).2
  | .cls _, p => .refl p
  | .base b, p => keeps_remember (keeps_onGraph _) (.base b) p
  | .arged b arg, p =>
    have hbase : ∀ p, Keeps p ((baseNode b).run p).2 := keeps_remember (keeps_onGraph _) (.base b)
    keeps_remember (keeps_bind hbase fun _ => keeps_bind (keeps_leafNode arg) fun _ =>
      keeps_onGraph _) (.arged b arg) p
  | .empty, p => keeps_voidNode p
  | .univ, p | .anyOf _, p => keeps_remember (keeps_onGraph _) .univ p

theorem keeps_typeNode (a : TypeSet) (p : Palette) : Keeps p ((typeNode a).run p).2 := by
  cases a with
  | anyOf ops =>
    rw [typeNode]
    exact keeps_remember (keeps_leafNode _) (.anyOf ops) p
  | _ => exact keeps_leafNode _ p

/-- What a palette answers for a set it answers from then on. -/
theorem recalls_typeNode (a : TypeSet) (p : Palette) :
    ((typeNode a).run p).2.Recalls a ((typeNode a).run p).1 := by
  cases a with
  | cls decl => rfl
  | empty => exact void?_voidNode p
  | anyOf ops =>
    rw [typeNode]
    exact lookup_remember (.anyOf ops) _ p
  | _ => exact lookup_remember _ _ p

end Palette

end TypeFlow
