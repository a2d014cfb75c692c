import TypeFlow.Proofs.Graph.Shuffle
import TypeFlow.Proofs.Inference.ReturnSlots
/-!
# Resolved programs with statements in another order

A resolved program stays one when its statements change places (`Shuffles.resolved`). The
declarations around a node are the same (`enclosing?_eq`), and functions are found in the same
order (`reachable_functions_eq`), since no statement stands between two of them. So they get the
same return slots (`shuffles_withReturnSlots`).
-/

namespace TypeFlow

open Program

namespace Graph.Shuffles

variable {g h : Graph} {root n m : NodeId}

theorem required_not_item {k : NodeKind} {r : Role} (h : r ∈ required k) : r.isItem = false := by
  unfold required at h
  split at h <;> simp at h <;> rcases h with rfl | rfl <;> rfl

/-- A resolved program stays one. -/
theorem resolved (hs : Shuffles g h) (hg : Resolved g root) : Resolved h root where
  kept := hs.kept
  program := (hs.kind root).trans hg.program
  top := by
    have hperm := hs.parents_perm hg.kept root
    rw [hg.top] at hperm
    exact hperm.eq_nil
  tree n hn := by
    rw [(hs.parents_perm hg.kept n).length_eq]
    exact hg.tree n ((hs.below_iff root n).1 hn)
  fits n hn e he hr := by
    have hbelow := (hs.below_iff root n).1 hn
    rw [hs.kind, hs.kind]
    by_cases hitem : e.role.isItem = true
    · by_cases hblock : g.kind n = .stmt .block
      · have hmem : e.node ∈ g.items n :=
          (hs.items n).mem_iff.1 (Graph.mem_items.2 ⟨e.role, hitem, he⟩)
        obtain ⟨i, hfits⟩ := hg.fits_item hbelow hmem
        rw [hblock] at hfits ⊢
        obtain ⟨r, k⟩ := e
        cases r <;> first | exact hfits | cases hitem
      · exact hg.fits n hbelow e ((hs.outgoing n hblock).mem_iff.1 he) hr
    · exact hg.fits n hbelow e ((hs.mem_outgoing (by simpa using hitem)).1 he) hr
  complete n hn r hr := by
    rw [hs.kind] at hr
    rw [hs.hasChild_eq hg.kept n (required_not_item hr)]
    exact hg.complete n ((hs.below_iff root n).1 hn) r hr
  named n hn hnamed := by
    rw [hs.kind] at hnamed
    rw [hs.name?_eq]
    exact hg.named n ((hs.below_iff root n).1 hn) hnamed
  tied n hn d hd := by
    rw [hs.child?_eq hg.kept n rfl] at hd
    rw [hs.kind, hs.kind, hs.below_iff]
    exact hg.tied n ((hs.below_iff root n).1 hn) d hd

variable (hs : Shuffles g h) (hg : Resolved g root)

include hs hg

/-- Nodes of a program have at most one parent, and that is the same. -/
theorem parents_eq (hn : g.Below root n) : h.parents n = g.parents n := by
  have hperm := hs.parents_perm hg.kept n
  have hone := hg.tree n hn
  rcases hp : g.parents n with _ | ⟨p, ps⟩
  · rw [hp] at hperm
    exact hperm.eq_nil
  · obtain rfl : ps = [] := by
      rw [hp, List.length_cons] at hone
      exact List.length_eq_zero_iff.1 (by omega)
    rw [hp] at hperm
    exact List.perm_singleton.1 hperm

/-- The same declarations lie around a node. -/
theorem enclosing?_eq (hn : g.Below root n) (kind : DeclKind) :
    Flow.enclosing? h n kind = Flow.enclosing? g n kind := by
  have hascend : h.ascend (.up n) (g.size + 1) [n] [n] = g.ascend (.up n) (g.size + 1) [n] [n] :=
    ascend_congr (P := g.Below root) (fun _ hk _ hp => hg.below_parent hk hp)
      (fun _ hk => hs.parents_eq hg hk) (by simpa using hn) (by simpa using hn)
  have hvisits : h.visits (.up n) = g.visits (.up n) := by
    change (h.ascend (.up n) (h.size + 1) [n] [n]).filter (· ≠ n) =
      (g.ascend (.up n) (g.size + 1) [n] [n]).filter (· ≠ n)
    rw [hs.size, hascend]
  simp only [Flow.enclosing?, nearestAncestor?, first?, hvisits, hs.kind]

end Graph.Shuffles

/-! ## The order of functions -/

namespace Program

/-- The program, its classes and their functions. -/
def isOuter : NodeKind → Bool
  | .decl .program | .decl .classDecl | .decl .function => true
  | _ => false

/-- Only the program and its classes hold functions and classes. -/
theorem isOuter_of_fits {k k' : NodeKind} {r : Role} (h : fits k r k') (hk : isOuter k') :
    isOuter k := by
  have hheld := heldBy_of_fits h
  unfold isOuter at hk
  split at hk
  · exact hheld.elim
  · rw [hheld.2]
    rfl
  · rcases hheld.2 with rfl | rfl <;> rfl
  · cases hk

end Program

namespace Graph.Shuffles

variable {g h : Graph} {root : NodeId}

/-- Functions are found in the same order. -/
theorem reachable_functions_eq (hs : Shuffles g h) (hg : Resolved g root) {p q : NodeId → Bool}
    (hp : ∀ n, p n → g.kind n = .decl .function) (hpq : ∀ n, g.Below root n → q n = p n) :
    h.reachable root q = g.reachable root p := by
  have hclosed : ∀ n, g.Below root n → ∀ m ∈ g.below (.down root) n, g.Below root m := by
    intro n hn m hm
    obtain ⟨e, he, hr, rfl⟩ := mem_below_down.1 hm
    exact hn.child he hr
  have hinner : ∀ n, g.Below root n → isOuter (g.kind n) = false →
      ∀ m ∈ g.below (.down root) n, isOuter (g.kind m) = false := by
    intro n hn hk m hm
    obtain ⟨e, he, hr, rfl⟩ := mem_below_down.1 hm
    by_contra hne
    rw [isOuter_of_fits (hg.fits n hn e he hr) (by simpa using hne)] at hk
    cases hk
  have hroot : ∀ n ∈ [root], g.Below root n := by
    intro n hn
    rw [List.mem_singleton.1 hn]
    exact .root
  have hnext : ∀ n, g.Below root n →
      (h.below (.down root) n).filter (fun m => isOuter (g.kind m)) =
        (g.below (.down root) n).filter fun m => isOuter (g.kind m) := by
    intro n hn
    by_cases hk : isOuter (g.kind n) = true
    · have hblock : g.kind n ≠ .stmt .block := by
        intro hb
        simp [hb, isOuter] at hk
      rw [hs.below_eq hg.kept hblock]
    · have hnone := hinner n hn (by simpa using hk)
      have hempty : ∀ ns : List NodeId, (∀ m ∈ ns, m ∈ g.below (.down root) n) →
          ns.filter (fun m => isOuter (g.kind m)) = [] := fun ns hns =>
        List.filter_eq_nil_iff.2 fun m hm => by simp [hnone m (hns m hm)]
      rw [hempty _ fun m hm => (hs.below_perm root n).mem_iff.1 hm, hempty _ fun m hm => hm]
  have hwalk := (walk_visits (g := g) root).filter hclosed hinner hroot
  have hwalk' := (walk_visits (g := h) root).filter (P := g.Below root)
    (fun n hn m hm => hclosed n hn m ((hs.below_perm root n).mem_iff.1 hm))
    (fun n hn hk m hm => hinner n hn hk m ((hs.below_perm root n).mem_iff.1 hm)) hroot
  have houter := (hwalk.congr (P := g.Below root)
    (fun n hn m hm => hclosed n hn m (List.mem_filter.1 hm).1) hnext
    (fun n hn => hroot n (List.mem_filter.1 hn).1)).functional hwalk'
  -- functions are found among the outer nodes
  have hfilter : ∀ {k : Graph}, (∀ n, k.Below root n → g.Below root n) →
      k.reachable root q =
        ((k.visits (.down root)).filter fun m => isOuter (g.kind m)).filter p := by
    intro k hk
    rw [List.filter_filter, reachable, collect]
    refine List.filter_congr fun n hn => ?_
    rw [hpq n (hk n (mem_visits_down.1 hn))]
    cases hpn : p n with
    | false => simp
    | true => simp [hp n hpn, isOuter]
  have hsame : g.reachable root p = g.reachable root q := by
    refine List.filter_congr fun n hn => ?_
    rw [hpq n (mem_visits_down.1 hn)]
  rw [hsame, hfilter fun n hn => (hs.below_iff root n).1 hn, hfilter fun n hn => hn, houter]

/-! ## Return slots -/

theorem items_withSlot_of_child? {f : NodeId} (hf : g.has f) (hnone : g.child? f .returnSlot = none)
    (n : NodeId) : (g.withSlot f).items n = g.items n := by
  rw [Graph.items, Graph.items, itemEdges, itemEdges, outgoing_withSlot_of_child? hf hnone]
  split <;> simp [List.filter_append, Role.isItem, Role.index?]

/-- A function gets the same return slot. -/
theorem withSlot (hs : Shuffles g h) (hg : g.WellKept) {f : NodeId} (hf : g.has f) :
    Shuffles (g.withSlot f) (h.withSlot f) := by
  have hf' : h.has f := (hs.has_eq f).trans hf
  have hchild := hs.child?_eq hg f (r := .returnSlot) rfl
  cases hc : g.child? f .returnSlot with
  | some s =>
    rw [withSlot_of_hasChild (by simp [hasChild, hc]),
      withSlot_of_hasChild (by simp [hasChild, hchild, hc])]
    exact hs
  | none =>
    rw [hc] at hchild
    have hout : ∀ n, ((h.outgoing n).Perm (g.outgoing n)) →
        ((h.withSlot f).outgoing n).Perm ((g.withSlot f).outgoing n) := by
      intro n hperm
      rw [outgoing_withSlot_of_child? hf hc, outgoing_withSlot_of_child? hf' hchild, hs.fresh_eq]
      split
      · exact hperm.append_right _
      · exact hperm
    refine ⟨wellKept_withSlot_of_child? hf' hchild hs.kept, ?_, fun n => ?_, fun n => ?_,
      fun n hn => ?_, fun n => ?_, fun n => ?_⟩
    · rw [withSlot_of_child? hc, withSlot_of_child? hchild, size_hang, size_hang, hs.size]
    · rw [kind_withSlot_of_child? hc, kind_withSlot_of_child? hchild, hs.fresh_eq, hs.kind]
    · rw [payload_withSlot_of_child? hc, payload_withSlot_of_child? hchild, hs.fresh_eq, hs.payload]
    · rw [kind_withSlot_of_child? hc] at hn
      by_cases hfresh : n = g.fresh
      · refine hout n ?_
        rw [hfresh, outgoing_of_not_has has_fresh,
          outgoing_of_not_has ((hs.has_eq _).trans has_fresh)]
      · rw [if_neg hfresh] at hn
        exact hout n (hs.outgoing n hn)
    · rw [outgoing_withSlot_of_child? hf hc, outgoing_withSlot_of_child? hf' hchild, hs.fresh_eq]
      split
      · rw [List.filter_append, List.filter_append]
        exact (hs.others n).append_right _
      · exact hs.others n
    · rw [items_withSlot_of_child? hf hc, items_withSlot_of_child? hf' hchild]
      exact hs.items n

end Graph.Shuffles

namespace Inference

variable {g h : Graph} {root : NodeId}

/-- All functions get the same return slots. -/
theorem shuffles_withReturnSlots (hs : Graph.Shuffles g h) (hg : Resolved g root) :
    Graph.Shuffles (withReturnSlots g root) (withReturnSlots h root) := by
  have hfold : ∀ {fs : List NodeId} {k k' : Graph}, Slotted g k root → Graph.Shuffles k k' →
      (∀ f ∈ fs, g.Below root f ∧ g.kind f = .decl .function) →
        Graph.Shuffles (fs.foldl Graph.withSlot k) (fs.foldl Graph.withSlot k') := by
    intro fs
    induction fs with
    | nil => exact fun _ hk _ => hk
    | cons f fs ih =>
      intro k k' hslotted hk hfs
      obtain ⟨⟨hf, hkind⟩, hfs⟩ := List.forall_mem_cons.1 hfs
      have hbelow := (hslotted.below f hf).1
      exact ih (hslotted.step hf hkind).1
        (hk.withSlot hslotted.resolved.kept (hslotted.resolved.has_below hbelow)) hfs
  rw [Graph.withReturnSlots_eq, Graph.withReturnSlots_eq,
    hs.reachable_functions_eq hg (p := fun n => g.kind n = .decl .function)
      (fun n hn => by simpa using hn) (fun n _ => by rw [hs.kind])]
  exact hfold (.refl hg) hs
    fun f hf => by simpa using Graph.mem_reachable.1 hf

end Inference

end TypeFlow
