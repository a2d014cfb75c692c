import TypeFlow.Proofs.Graph.Hang
import TypeFlow.Proofs.Inference.Outcome
import TypeFlow.Proofs.Program.Tree
/-!
# Return slots

Giving a function a slot adds one node below it (`withSlot`). A resolved program stays one, and in
the end every function of it has a slot (`resolved_withReturnSlots`, `hasChild_withReturnSlots`).
-/

namespace TypeFlow

namespace Graph

/-- The graph in which a function has a slot for what it returns. -/
def withSlot (g : Graph) (f : NodeId) : Graph :=
  if g.hasChild f .returnSlot then g
  else (g.add (.decl .returnSlot) .none).link f .returnSlot g.fresh

theorem run_addReturnSlot (g : Graph) (f : NodeId) :
    (Inference.addReturnSlot f).run g = ((), g.withSlot f) := by
  unfold withSlot
  by_cases h : g.hasChild f .returnSlot = true
  · simp only [Inference.addReturnSlot, StateT.run_bind, StateT.run_get, h, pure_bind]
    rfl
  · have hnone : (g.outgoing f).find? (·.role = .returnSlot) = none := by
      simpa [hasChild, child?] using h
    have hremove : (g.add (.decl .returnSlot) .none).removeChild f .returnSlot =
        g.add (.decl .returnSlot) .none := by
      rw [removeChild, outgoing_add, hnone]
    have hset : (g.add (.decl .returnSlot) .none).setChild f .returnSlot g.fresh =
        (g.add (.decl .returnSlot) .none).link f .returnSlot g.fresh := by
      rw [setChild, hremove]
    rw [if_neg h, ← hset]
    simp only [Inference.addReturnSlot, StateT.run_bind, StateT.run_get, h, pure_bind]
    rfl

/-- Return slots are given to the functions below a root one after the other. -/
theorem withReturnSlots_eq (g : Graph) (root : NodeId) : Inference.withReturnSlots g root =
    (g.reachable root fun n => g.kind n = .decl .function).foldl withSlot g := by
  have hrun : ∀ (fs : List NodeId) (h : Graph),
      ((fs.forM Inference.addReturnSlot).run h).2 = fs.foldl withSlot h := by
    intro fs
    induction fs with
    | nil => exact fun _ => rfl
    | cons f fs ih =>
      intro h
      rw [List.foldl_cons, ← ih, List.forM_eq_forM, List.forM_cons, StateT.run_bind,
        run_addReturnSlot]
      rfl
  exact hrun _ g

/-! ## One slot -/

section WithSlot

variable {g : Graph} {root f n m : NodeId} {r : Role}

theorem withSlot_of_hasChild (h : g.hasChild f .returnSlot) : g.withSlot f = g := if_pos h

theorem withSlot_of_child? (h : g.child? f .returnSlot = none) :
    g.withSlot f = g.hang f .returnSlot (.decl .returnSlot) .none :=
  if_neg (by simp [hasChild, h])

variable (hf : g.has f) (hnone : g.child? f .returnSlot = none)

include hnone

theorem kind_withSlot_of_child? :
    (g.withSlot f).kind n = if n = g.fresh then .decl .returnSlot else g.kind n := by
  rw [withSlot_of_child? hnone, kind_hang]

theorem payload_withSlot_of_child? :
    (g.withSlot f).payload n = if n = g.fresh then .none else g.payload n := by
  rw [withSlot_of_child? hnone, payload_hang]

include hf

theorem outgoing_withSlot_of_child? : (g.withSlot f).outgoing n =
    if n = f then g.outgoing n ++ [⟨.returnSlot, g.fresh⟩] else g.outgoing n := by
  rw [withSlot_of_child? hnone, outgoing_hang hf]

theorem child?_withSlot_of_child? : (g.withSlot f).child? n r =
    if n = f ∧ r = .returnSlot then some g.fresh else g.child? n r := by
  rw [withSlot_of_child? hnone, child?_hang hf hnone]

theorem wellKept_withSlot_of_child? (hg : g.WellKept) : (g.withSlot f).WellKept := by
  rw [withSlot_of_child? hnone]
  exact wellKept_hang hf hg hnone

end WithSlot

end Graph

namespace Program.Resolved

variable {g : Graph} {root f n m : NodeId}

theorem below_withSlot (h : Resolved g root) (hf : g.Below root f) (hn : g.Below root n) :
    (g.withSlot f).Below root n := by
  rcases hs : g.child? f .returnSlot with _ | s
  · rw [Graph.withSlot_of_child? hs]
    exact Graph.below_hang (h.has_below hf) hn
  · rwa [Graph.withSlot_of_hasChild (by simp [Graph.hasChild, hs])]

/-- Only the new slot comes to lie below the root. -/
theorem below_of_withSlot (h : Resolved g root) (hf : g.Below root f)
    (hs : g.child? f .returnSlot = none) (hn : (g.withSlot f).Below root n) :
    g.Below root n ∨ n = g.fresh := by
  rw [Graph.withSlot_of_child? hs] at hn
  exact (Graph.below_of_hang (h.has_below hf) hn).imp_right And.left

/-- A resolved program stays one when a function of it gets a slot. -/
theorem withSlot (h : Resolved g root) (hf : g.Below root f) (hkind : g.kind f = .decl .function) :
    Resolved (g.withSlot f) root := by
  rcases hs : g.child? f .returnSlot with _ | s
  case some => rwa [Graph.withSlot_of_hasChild (by simp [Graph.hasChild, hs])]
  have hhas := h.has_below hf
  have hrooted : (g.withSlot f).Rooted root := by
    rw [Graph.withSlot_of_child? hs]
    exact h.rooted.hang hhas hs rfl
  have hfresh : g.fresh ≠ f := (Graph.ne_fresh hhas).symm
  have hkinds : ∀ k, g.has k → (g.withSlot f).kind k = g.kind k := by
    intro k hk
    rw [Graph.kind_withSlot_of_child? hs, if_neg (Graph.ne_fresh hk)]
  have hslot : (g.withSlot f).kind g.fresh = .decl .returnSlot := by
    rw [Graph.kind_withSlot_of_child? hs, if_pos rfl]
  have hchild : ∀ k r, r ≠ .returnSlot → (g.withSlot f).child? k r = g.child? k r := by
    intro k r hr
    rw [Graph.child?_withSlot_of_child? hhas hs, if_neg fun h => hr h.2]
  have hchildless : ∀ r, (g.withSlot f).child? g.fresh r = none := by
    intro r
    rw [Graph.child?_withSlot_of_child? hhas hs, if_neg fun h => hfresh h.1]
    simp [Graph.child?, Graph.outgoing_of_not_has Graph.has_fresh]
  refine ⟨hrooted.kept, ?_, hrooted.top, hrooted.tree, fun n hn => ?_, fun n hn => ?_,
    fun n hn => ?_, fun n hn d hd => ?_⟩
  · rw [hkinds root h.has_root, h.program]
  · intro e he hr
    rw [Graph.outgoing_withSlot_of_child? hhas hs] at he
    rcases h.below_of_withSlot hf hs hn with hb | rfl
    · rw [hkinds n (h.has_below hb)]
      split at he
      · next hnf =>
        subst hnf
        rcases List.mem_append.1 he with he | he
        · rw [hkinds _ (h.kept.has_target he)]
          exact h.fits n hb e he hr
        · obtain rfl := List.mem_singleton.1 he
          rw [hslot, hkind]
          rfl
      · rw [hkinds _ (h.kept.has_target he)]
        exact h.fits n hb e he hr
    · rw [if_neg hfresh, Graph.outgoing_of_not_has Graph.has_fresh] at he
      cases he
  · intro r hr
    rcases h.below_of_withSlot hf hs hn with hb | rfl
    · rw [hkinds n (h.has_below hb)] at hr
      have hold := h.complete n hb r hr
      rw [Graph.hasChild, Graph.child?_withSlot_of_child? hhas hs]
      split
      · rfl
      · exact hold
    · rw [hslot] at hr
      cases hr
  · intro hnamed
    rcases h.below_of_withSlot hf hs hn with hb | rfl
    · rw [hkinds n (h.has_below hb)] at hnamed
      rw [Graph.name?, Graph.payload_withSlot_of_child? hs,
        if_neg (Graph.ne_fresh (h.has_below hb))]
      exact h.named n hb hnamed
    · rw [hslot] at hnamed
      cases hnamed
  · rcases h.below_of_withSlot hf hs hn with hb | rfl
    · rw [hchild n .ref (by simp)] at hd
      obtain ⟨hbelow, hrefers⟩ := h.tied n hb d hd
      rw [hkinds n (h.has_below hb), hkinds d (h.has_below hbelow)]
      exact ⟨h.below_withSlot hf hbelow, hrefers⟩
    · rw [hchildless] at hd
      cases hd

end Program.Resolved

/-! ## All slots -/

namespace Inference

open Program

variable {g : Graph} {root f n : NodeId}

/-- What the return slots of a list of functions leave of a program. -/
structure Slotted (g h : Graph) (root : NodeId) : Prop where
  resolved : Resolved h root
  below : ∀ n, g.Below root n → h.Below root n ∧ h.kind n = g.kind n
  new : ∀ n, h.Below root n → g.Below root n ∨ h.kind n = .decl .returnSlot
  child : ∀ n r, r ≠ .returnSlot → h.child? n r = g.child? n r

theorem Slotted.refl (h : Resolved g root) : Slotted g g root :=
  ⟨h, fun _ hn => ⟨hn, rfl⟩, fun _ hn => Or.inl hn, fun _ _ _ => rfl⟩

theorem Slotted.step {h : Graph} (hs : Slotted g h root) (hf : g.Below root f)
    (hkind : g.kind f = .decl .function) :
    Slotted g (h.withSlot f) root ∧
      ∀ n, n = f ∨ h.hasChild n .returnSlot → (h.withSlot f).hasChild n .returnSlot := by
  obtain ⟨hbelow, hk⟩ := hs.below f hf
  have hfunc : h.kind f = .decl .function := hk.trans hkind
  rcases hc : h.child? f .returnSlot with _ | s
  · have hhas := hs.resolved.has_below hbelow
    have hkinds : ∀ n, h.Below root n → (h.withSlot f).kind n = h.kind n := by
      intro n hn
      rw [Graph.kind_withSlot_of_child? hc, if_neg (Graph.ne_fresh (hs.resolved.has_below hn))]
    refine ⟨⟨hs.resolved.withSlot hbelow hfunc, fun n hn => ?_, fun n hn => ?_,
      fun n r hr => ?_⟩, fun n hn => ?_⟩
    · obtain ⟨hb, hkn⟩ := hs.below n hn
      exact ⟨hs.resolved.below_withSlot hbelow hb, (hkinds n hb).trans hkn⟩
    · rcases hs.resolved.below_of_withSlot hbelow hc hn with hn | rfl
      · rw [hkinds n hn]
        exact hs.new n hn
      · rw [Graph.kind_withSlot_of_child? hc, if_pos rfl]
        exact Or.inr rfl
    · rw [Graph.child?_withSlot_of_child? hhas hc, if_neg fun h => hr h.2, hs.child n r hr]
    · rw [Graph.hasChild, Graph.child?_withSlot_of_child? hhas hc]
      split
      · rfl
      · next hne => exact hn.resolve_left fun h => hne ⟨h, rfl⟩
  · have hchild : h.hasChild f .returnSlot := by simp [Graph.hasChild, hc]
    rw [Graph.withSlot_of_hasChild hchild]
    exact ⟨hs, fun n hn => hn.elim (fun h => h ▸ hchild) id⟩

theorem slotted_foldl : ∀ {fs : List NodeId} {h : Graph}, Slotted g h root →
    (∀ f ∈ fs, g.Below root f ∧ g.kind f = .decl .function) →
      Slotted g (fs.foldl Graph.withSlot h) root ∧
        ∀ n, n ∈ fs ∨ h.hasChild n .returnSlot →
          (fs.foldl Graph.withSlot h).hasChild n .returnSlot
  | [], _, hs, _ => ⟨hs, fun _ hn => hn.resolve_left List.not_mem_nil⟩
  | f :: fs, h, hs, hfs => by
    obtain ⟨⟨hf, hkind⟩, hfs⟩ := List.forall_mem_cons.1 hfs
    obtain ⟨hstep, hchild⟩ := hs.step hf hkind
    obtain ⟨hrest, hchildren⟩ := slotted_foldl hstep hfs
    refine ⟨hrest, fun n hn => hchildren n ?_⟩
    rcases hn with hn | hn
    · rcases List.mem_cons.1 hn with rfl | hn
      · exact Or.inr (hchild n (Or.inl rfl))
      · exact Or.inl hn
    · exact Or.inr (hchild n (Or.inr hn))

theorem slotted_withReturnSlots (h : Resolved g root) :
    Slotted g (withReturnSlots g root) root ∧
      ∀ f, g.Below root f → g.kind f = .decl .function →
        (withReturnSlots g root).hasChild f .returnSlot := by
  rw [Graph.withReturnSlots_eq]
  have hfunctions : ∀ f ∈ g.reachable root fun n => g.kind n = .decl .function,
      g.Below root f ∧ g.kind f = .decl .function :=
    fun f hf => by simpa using Graph.mem_reachable.1 hf
  obtain ⟨hslotted, hchild⟩ := slotted_foldl (.refl h) hfunctions
  exact ⟨hslotted, fun f hf hkind => hchild f (Or.inl (Graph.mem_reachable.2 ⟨hf, by simpa⟩))⟩

/-- A resolved program stays one when its functions get their return slots. -/
theorem resolved_withReturnSlots (h : Resolved g root) :
    Resolved (withReturnSlots g root) root := (slotted_withReturnSlots h).1.resolved

/-- In the end every function has a return slot. -/
theorem hasChild_withReturnSlots (h : Resolved g root)
    (hf : (withReturnSlots g root).Below root f)
    (hkind : (withReturnSlots g root).kind f = .decl .function) :
    (withReturnSlots g root).hasChild f .returnSlot := by
  obtain ⟨hslotted, hchild⟩ := slotted_withReturnSlots h
  rcases hslotted.new f hf with hg | hslot
  · exact hchild f hg ((hslotted.below f hg).2 ▸ hkind)
  · rw [hslot] at hkind
    cases hkind

end Inference

end TypeFlow
