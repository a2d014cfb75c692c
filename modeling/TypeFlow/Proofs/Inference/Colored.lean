import TypeFlow.Proofs.Coloring.Palette
import TypeFlow.Proofs.Inference.ReturnSlots
import TypeFlow.Proofs.Inference.Settled
/-!
# Colored programs

An inference that ends well colors the graph from a settled table (`colored_of_run`): every
typable node of the program gets a color that fits its bounds.
-/

namespace TypeFlow

namespace Inference

open TypeSet Program

variable {g g' : Graph} {root n : NodeId} {t : BoundsTable}

/-- Every typable node of a program has a color that fits what a table has on it, and nodes of
which it has the same have one color. -/
structure Colored (g : Graph) (root : NodeId) (t : BoundsTable) (g' : Graph) : Prop where
  kept : g'.WellKept
  grown : Graph.Extends (· ≠ .colored) g g'
  color : ∀ n, g.Below root n → (g.kind n).isTypable →
    ∃ k, g'.coloredType? n = some k ∧ Palette.Fits ⟨t.shown n, t.permitted n⟩ g' k
  shared : ∀ n m, g.Below root n → (g.kind n).isTypable → g.Below root m → (g.kind m).isTypable →
    t.of? n = t.of? m → g'.coloredType? n = g'.coloredType? m

theorem Tidy.over (ht : Tidy g root t) : t.Over (Palette.ClassLeaf g) :=
  ht.leaves.mono fun x => ClassesIn.mono (fun _ hc => hc.2) x

theorem Tidy.of?_eq (ht : Tidy g root t) (hn : g.Below root n) (hkind : (g.kind n).isTypable) :
    t.of? n = some ⟨t.shown n, t.permitted n⟩ := by
  obtain ⟨s, hs⟩ := Option.isSome_iff_exists.1 (ht.bound hn hkind)
  rw [t.of?_eq, hs, t.shown_of_slot? hs, t.permitted_of_slot? hs]
  rfl

theorem has_typable (hg : Resolved g root) : ∀ n ∈ typable g root, g.has n := fun _ hn =>
  hg.has_below (Graph.mem_reachable.1 hn).1

theorem colored_of_colorAll (hg : Resolved g root) (ht : Tidy g root t) {colors : ColorStats}
    (h : (Graph.colorAll t (typable g root)).run g = (.ok colors, g')) :
    Colored g root t g' := by
  obtain ⟨p, hrun, -, rfl⟩ := Graph.run_colorAll_eq_ok.1 h
  obtain ⟨hfaithful, -, hgrown, -, hcolored⟩ :=
    Palette.colored_of_forM ht.over (Palette.faithful_ofGraph hg.kept) (has_typable hg) hrun
  refine ⟨hfaithful.kept, hgrown, fun n hn hkind => ?_, fun n m hn hkind hm hkind' hsame => ?_⟩
  · obtain ⟨k, hk, hfits, -⟩ :=
      hcolored n (Graph.mem_reachable.2 ⟨hn, hkind⟩) _ (ht.of?_eq hn hkind)
    exact ⟨k, hk, hfits⟩
  · have hb := ht.of?_eq hn hkind
    obtain ⟨k, hk, -, hrecalls⟩ := hcolored n (Graph.mem_reachable.2 ⟨hn, hkind⟩) _ hb
    obtain ⟨k', hk', -, hrecalls'⟩ :=
      hcolored m (Graph.mem_reachable.2 ⟨hm, hkind'⟩) _ (hsame.symm.trans hb)
    rw [hk, hk', hrecalls.unique hrecalls']

/-- An inference that ends well colors the program from a settled table. -/
theorem colored_of_run (hg : Resolved g root) {ceiling : Nat} {allow : Bool} {report : Report}
    (h : (run root ceiling allow).run g = (.ok report, g')) :
    ∃ t, Settled (withReturnSlots g root) root t ∧ Colored (withReturnSlots g root) root t g' := by
  have hslots := resolved_withReturnSlots hg
  obtain ⟨seeds, stats, t, colors, hseeds, hsettled, hcolors, -⟩ := run_eq_ok.1 h
  have ht := settled_of_seeded hslots hseeds hsettled
  exact ⟨t, ht, colored_of_colorAll hslots ht.toTidy hcolors⟩

/-- What a value is colored refines what its place is colored, if the place shows and permits all
that the value both shows and permits, and if neither is left to chance: nothing is void, and a
place without a type takes everything. -/
theorem Colored.refines_of_within (hg' : Colored g root t g') (ht : Settled g root t)
    {src dst : NodeId} (hsrc : g.Below root src) (hsrck : (g.kind src).isTypable)
    (hdst : g.Below root dst) (hdstk : (g.kind dst).isTypable)
    (hwithin : ((t.shown src).inter (t.permitted src)).Within
      ((t.shown dst).inter (t.permitted dst))) :
    ∃ a b, g'.coloredType? src = some a ∧ g'.coloredType? dst = some b ∧
      (g'.kind a = .type .void ∨ g'.kind b = .type .dynamic ∨
        ∃ x y, g'.Denotes a x ∧ g'.Denotes b y ∧ Refines x y) := by
  obtain ⟨a, ha, hfits⟩ := hg'.color src hsrc hsrck
  obtain ⟨b, hb, hfits'⟩ := hg'.color dst hdst hdstk
  refine ⟨a, b, ha, hb, ?_⟩
  have hs := ht.sound.canonical_shown
  have hp := ht.sound.canonical_permitted
  rcases hfits with ⟨-, hvoid⟩ | ⟨he, hshows⟩
  · exact Or.inl hvoid
  · rcases hfits' with ⟨he', -⟩ | ⟨he', hshows'⟩
    · rw [he'] at hwithin
      exact absurd (within_empty (canonical_inter (hs src) (hp src)) hwithin) he
    · rcases reduced_mono (canonical_inter (hs src) (hp src)) (canonical_inter (hs dst) (hp dst)) he
        hwithin with hu | hr
      · refine Or.inr (Or.inl ?_)
        have hdenotes := hshows'.denotes
        rw [show (Bounds.mk (t.shown dst) (t.permitted dst)).shown.inter _ =
          (t.shown dst).inter (t.permitted dst) from rfl, hu] at hdenotes
        cases hdenotes with
        | dynamic h => exact h
      · exact Or.inr (Or.inr ⟨_, _, hshows.denotes, hshows'.denotes, hr⟩)

/-- What a value is colored refines what its place is colored, if the value flows into it. -/
theorem Colored.refines (hg' : Colored g root t g') (ht : Settled g root t) {src dst : NodeId}
    (hsrc : g.Below root src) (hsrck : (g.kind src).isTypable) (hdst : g.Below root dst)
    (hdstk : (g.kind dst).isTypable) (hflows : Flows t src dst) :
    ∃ a b, g'.coloredType? src = some a ∧ g'.coloredType? dst = some b ∧
      (g'.kind a = .type .void ∨ g'.kind b = .type .dynamic ∨
        ∃ x y, g'.Denotes a x ∧ g'.Denotes b y ∧ Refines x y) := by
  have hs := ht.sound.canonical_shown
  have hp := ht.sound.canonical_permitted
  exact hg'.refines_of_within ht hsrc hsrck hdst hdstk
    (within_inter (hs dst) (hp dst)
      ((inter_within_left (hs src) (hp src)).trans hflows.shown.within)
      ((inter_within_right (hs src) (hp src)).trans hflows.permitted))

end Inference

end TypeFlow
