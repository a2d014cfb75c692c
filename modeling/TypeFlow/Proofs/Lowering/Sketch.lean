import TypeFlow.Proofs.Lowering.Firing
/-!
# Drafting a tree

The steps of a draft with their accounts (`Sketch`). A draft that gives the place of a form to the
one node that is still free is a surgery (`yields_retire`), so that its rule lowers the program.
-/

namespace TypeFlow

namespace Lowering

open TypeFlow.Graph Program

section Steps

variable {α : Type} {g h : Graph} {busy turned leaves : List NodeId} {left : NodeId → List Edge}
  {free : Multiset NodeId} {bare : List NodeId} {a b c : Handle} {r r' : Role}
  {Q : α → Graph → Prop}

/-- A draft on its way: the accounts so far, and new nodes that have no children yet. -/
structure Sketch (g : Graph) (busy turned leaves : List NodeId) (left : NodeId → List Edge)
    (h : Graph) (free : Multiset NodeId) (bare : List NodeId) : Prop where
  growth : ∃ made, Growth g busy turned leaves left h made free
  empty : ∀ x ∈ bare, g.has x = false ∧ h.has x ∧ h.arms x = []
  nodup : bare.Nodup

theorem Sketch.has_of_free (hs : Sketch g busy turned leaves left h free bare) {x : NodeId}
    (hx : x ∈ free) : h.has x := by
  obtain ⟨made, hg⟩ := hs.growth
  exact hg.has_of_free hx

/-- A bare node may be left as it is. -/
theorem Sketch.tail {x : NodeId} (hs : Sketch g busy turned leaves left h free (x :: bare)) :
    Sketch g busy turned leaves left h free bare :=
  ⟨hs.growth, fun y hy => hs.empty y (List.mem_cons_of_mem x hy), (List.nodup_cons.1 hs.nodup).2⟩

theorem Sketch.congr (hs : Sketch g busy turned leaves left h free bare)
    {free' : Multiset NodeId} (hfree : free = free') :
    Sketch g busy turned leaves left h free' bare := hfree ▸ hs

/-- A new node is free and bare. -/
theorem yields_node (hs : Sketch g busy turned leaves left h free bare) {k : NodeKind}
    (hk : isFiller k) (p : Payload) : Draft.Yields g (Draft.node k p) h fun a h' =>
      g.has (a.at g) = false ∧
        Sketch g busy turned leaves left h' (a.at g ::ₘ free) (a.at g :: bare) := by
  obtain ⟨made, hg⟩ := hs.growth
  refine Draft.yields_node fun a ha => ?_
  have hfresh : g.has h.fresh = false := by
    have hsize := hg.size
    exact decide_eq_false (Nat.not_lt.2 hsize)
  rw [ha]
  refine ⟨hfresh, ⟨made, hg.add hk p⟩, fun x hx => ?_, List.nodup_cons.2 ⟨fun hx => ?_, hs.nodup⟩⟩
  · rw [arms_add]
    rcases List.mem_cons.1 hx with rfl | hx
    · refine ⟨hfresh, ?_, arms_of_not_has has_fresh⟩
      rw [has_add]
      simp
    · obtain ⟨hold, hnew, harms⟩ := hs.empty x hx
      exact ⟨hold, by rw [has_add, hnew]; rfl, harms⟩
  · have hhas := (hs.empty _ hx).2.1
    rw [has_fresh] at hhas
    cases hhas

/-- A new node without children is free. -/
theorem yields_leaf (hs : Sketch g busy turned leaves left h free bare) {k : NodeKind}
    (hk : isFiller k) (p : Payload) : Draft.Yields g (Draft.node k p) h fun a h' =>
      Sketch g busy turned leaves left h' (a.at g ::ₘ free) bare :=
  (yields_node hs hk p).mono fun _ _ h => h.2.tail

theorem Sketch.link {x y : NodeId} (hs : Sketch g busy turned leaves left h (y ::ₘ free) bare)
    (hx : x ∈ free) (hbare : x ∉ bare) (hbusy : x ∈ busy ∨ g.has x = false) (hr : r.isStructural)
    (hrec : r = .receiver → isSegment (h.kind x) = false) :
    Sketch g busy turned leaves left (h.link x r y) free bare := by
  obtain ⟨made, hg⟩ := hs.growth
  refine ⟨⟨_, hg.link hx hbusy hr hrec⟩, fun z hz => ?_, hs.nodup⟩
  obtain ⟨hold, hnew, hempty⟩ := hs.empty z hz
  have hzx : z ≠ x := by
    rintro rfl
    exact hbare hz
  refine ⟨hold, by rw [has_link]; exact hnew, ?_⟩
  rw [arms_link (hs.has_of_free (Multiset.mem_cons_of_mem hx)) hr, if_neg hzx]
  exact hempty

/-- A free node becomes the child of another free node in a role that it does not have yet. -/
theorem yields_setChild (hs : Sketch g busy turned leaves left h (b.at g ::ₘ free) bare)
    (ha : a.at g ∈ free) (hbare : a.at g ∉ bare) (hbusy : a.at g ∈ busy ∨ g.has (a.at g) = false)
    (hr : r.isStructural) (habsent : r ∉ (h.arms (a.at g)).map Edge.role)
    (hrec : r = .receiver → isSegment (h.kind (a.at g)) = false) :
    Draft.Yields g (Draft.setChild a r b) h fun _ h' =>
      Sketch g busy turned leaves left h' free bare ∧ ∀ x, h'.arms x =
        if x = a.at g then h.arms x ++ [⟨r, b.at g⟩] else h.arms x := by
  have hhas : h.has (a.at g) := hs.has_of_free (Multiset.mem_cons_of_mem ha)
  have hlink : h.mutate ((Edit.setChild a r b).at g) = h.link (a.at g) r (b.at g) :=
    setChild_eq_link habsent hr
  refine Draft.yields_edit (fun n hn => ?_) ?_
  · have hn : n = a.at g ∨ n = b.at g := by simpa [Edit.at, Mutation.names] using hn
    rcases hn with rfl | rfl
    · exact hhas
    · exact hs.has_of_free (Multiset.mem_cons_self _ _)
  · rw [hlink]
    exact ⟨hs.link ha hbare hbusy hr hrec, fun x => arms_link hhas hr⟩

/-- A free node gets another one as its next item. -/
theorem yields_pushItem (hs : Sketch g busy turned leaves left h (b.at g ::ₘ free) bare)
    (ha : a.at g ∈ free) (hbare : a.at g ∉ bare)
    (hbusy : a.at g ∈ busy ∨ g.has (a.at g) = false) :
    Draft.Yields g (Draft.pushItem a b) h fun _ h' =>
      Sketch g busy turned leaves left h' free bare := by
  have hlink : h.mutate ((Edit.pushItem a b).at g) =
      h.link (a.at g) (.item (h.nextIndex (a.at g))) (b.at g) := rfl
  refine Draft.yields_edit (fun n hn => ?_) ?_
  · have hn : n = a.at g ∨ n = b.at g := by simpa [Edit.at, Mutation.names] using hn
    rcases hn with rfl | rfl
    · exact hs.has_of_free (Multiset.mem_cons_of_mem ha)
    · exact hs.has_of_free (Multiset.mem_cons_self _ _)
  · rw [hlink]
    exact hs.link ha hbare hbusy rfl (by rintro ⟨⟩)

/-- A bare node gets a child. -/
theorem yields_child (hs : Sketch g busy turned leaves left h (b.at g ::ₘ free) (a.at g :: bare))
    (ha : a.at g ∈ free) (hr : r.isStructural) (hrec : r ≠ .receiver) :
    Draft.Yields g (Draft.setChild a r b) h fun _ h' =>
      Sketch g busy turned leaves left h' free bare ∧ h'.arms (a.at g) = [⟨r, b.at g⟩] := by
  obtain ⟨hold, -, hempty⟩ := hs.empty _ List.mem_cons_self
  refine (yields_setChild hs.tail ha (List.nodup_cons.1 hs.nodup).1 (Or.inr hold) hr
    (by simp [hempty]) fun h => absurd h hrec).mono fun _ h' ⟨hs', harms⟩ => ⟨hs', ?_⟩
  rw [harms, if_pos rfl, hempty]
  rfl

/-- A bare node gets two children. -/
theorem yields_children {d : Draft α}
    (hs : Sketch g busy turned leaves left h (b.at g ::ₘ c.at g ::ₘ free) (a.at g :: bare))
    (ha : a.at g ∈ free) (hr : r.isStructural) (hr' : r'.isStructural) (hne : r' ≠ r)
    (hrec : r ≠ .receiver) (hrec' : r' ≠ .receiver)
    (hd : ∀ h', Sketch g busy turned leaves left h' free bare → Draft.Yields g d h' Q) :
    Draft.Yields g (do
      Draft.setChild a r b
      Draft.setChild a r' c
      d) h Q := by
  obtain ⟨hold, -, -⟩ := hs.empty _ List.mem_cons_self
  refine ((yields_child hs (Multiset.mem_cons_of_mem ha) hr hrec).mono
    fun _ h' ⟨hs', harms⟩ => ?_).bind
  refine ((yields_setChild hs' ha (List.nodup_cons.1 hs.nodup).1 (Or.inr hold) hr' ?_
    fun h => absurd h hrec').mono fun _ h'' h => hd h'' h.1).bind
  simpa [harms] using hne

end Steps

/-! ## The end of a draft -/

section Ends

variable {g h : Graph} {root n m x : NodeId} {gone busy turned leaves : List NodeId}
  {made : Multiset Wire} {d : Draft Unit}

/-- A node of a tree is not its own parent. -/
theorem not_mem_parents_self (hp : Parsed g root) (hn : g.Below root n) : n ∉ g.parents n := by
  intro h
  refine not_below_of_closed hp.balanced (P := fun x => x = n) ?_ ?_ n hn rfl
  · rintro x rfl y hy
    exact hp.parent_unique hn hy h
  · exact (hp.ne_root_of_parent h).symm

/-- A leaf does not hold the node above it: the tree has no cycle. -/
theorem Site.limb_ne (hs : Site g root n gone busy turned leaves) (hp : Parsed g root)
    (hn : n ∈ gone) (hm : m ∈ leaves ∨ g.has m = false) : ∀ e ∈ g.limbs m, e.node ≠ n := by
  rintro e he hen
  have hold : g.has m := has_of_mem_limbs he
  have hmleaf : m ∈ leaves := hm.resolve_right (by rw [hold]; nofun)
  have hmn : m ≠ n := by
    rintro rfl
    exact hs.apart m hmleaf hn
  have hparent : m ∈ g.parents n := (mem_parents_limbs hp.balanced).2 ⟨e, he, hen⟩
  refine not_below_of_closed hp.balanced (P := fun x => x = m ∨ x ∈ gone) ?_ ?_ n hs.below
    (Or.inr hn)
  · rintro x (rfl | hx) y hy
    · exact Or.inr (hs.parent_leaf hp hmleaf hmn hy)
    · by_cases hxn : x = n
      · subst hxn
        exact Or.inl (hp.parent_unique hs.below hy hparent)
      · rw [hs.parent_gone hp hx hxn hy]
        exact Or.inr hn
  · rintro (rfl | h)
    · exact hs.root_not_mem_leaves hp hmleaf
    · exact hs.root_not_mem_gone hp h

/-- A form that gives its place to the top of the new tree and loses its edges is a surgery. -/
theorem Growth.surgery (hg : Growth g busy turned leaves g.arms h made {m}) (hp : Parsed g root)
    (hs : Site g root n gone busy turned leaves) (hn : n ∈ gone)
    (hparts : ∀ x ∈ gone, x ≠ n → g.limbs x = 0) (hh : h.Balanced) :
    Surgery g root n m gone busy turned leaves
      (Function.update (fun x => (g.arms x).map (Edge.redirect n m)) n [])
      ((h.replace n m).detach n) made := by
  have hhas : g.has n := hp.has_below hs.below
  have hleaf : n ∉ leaves := fun h => hs.apart n h hn
  have hbusy : n ∉ busy := by
    intro h
    have hsurface := hs.isSurface_gone hn
    rw [hs.busy n h] at hsurface
    cases hsurface
  have hm : m ∈ leaves ∨ g.has m = false := by
    have hmem : m ∈ (leaves : Multiset NodeId) + newcomers g h := by
      rw [← hg.linear]
      exact Multiset.mem_add.2 (Or.inl (Multiset.mem_singleton_self m))
    exact (Multiset.mem_add.1 hmem).imp Multiset.mem_coe.1 fun h => ((mem_newcomers hg.size).1 h).2
  have hmhas : h.has m := hg.has_of_free (Multiset.mem_singleton_self m)
  refine ⟨hs, (hg.replace hhas hleaf hh (hs.limb_ne hp hn hm)).detach hhas hbusy,
    balanced_removeWhere (balanced_replace hh hmhas) _, fun h => absurd hn h, fun x hx => ?_,
    fun x hx hxn => ?_, fun h => absurd hn h⟩
  · by_cases hxn : x = n
    · rw [hxn, Function.update_self]
      rfl
    · rw [Function.update_of_ne hxn, limbsOf_redirect, ← Graph.limbs, hparts x hx hxn]
      rfl
  · rw [Function.update_of_ne hxn]

theorem yields_retire {b : Handle} (hp : Parsed g root)
    (hs : Site g root n gone busy turned leaves) (hn : n ∈ gone)
    (hparts : ∀ x ∈ gone, x ≠ n → g.limbs x = 0)
    (hd : Sketch g busy turned leaves g.arms h {b.at g} []) :
    Draft.Yields g (Draft.retire n b) h fun _ g' => Lowers g root n g' := by
  obtain ⟨made, hg⟩ := hd.growth
  have hb : h.has (b.at g) := hg.has_of_free (Multiset.mem_singleton_self _)
  have hhas : h.has n := has_mono hg.size (hp.has_below hs.below)
  refine Draft.yields_of_balanced fun hh => (Draft.yields_edit (fun x hx => ?_) ?_).bind
  · have hx : x = n ∨ x = b.at g := by simpa [Edit.at, Mutation.names] using hx
    rcases hx with rfl | rfl
    · exact hhas
    · exact hb
  · refine Draft.yields_edit (fun x hx => ?_) ((hg.surgery hp hs hn hparts hh).lowers hp)
    have hx : x = n := by simpa [Edit.at, Mutation.names] using hx
    rw [hx, has_congr (size_mutate_at _)]
    exact hhas

/-- A rule can fire at a node, and does the task there. -/
def Fires (r : GraphRule) (g : Graph) (root n : NodeId) : Prop :=
  ∃ p, r.effect g n = .ok (some p) ∧
    ∃ g', (Graph.commit p).run g = (.ok (), g') ∧ Lowers g root n g'

theorem fires_of_yields {r : GraphRule} (hp : Parsed g root)
    (heffect : r.effect g n = .ok (some d.patch))
    (hd : Draft.Yields g d g fun _ g' => Lowers g root n g') : Fires r g root n := by
  obtain ⟨g', hrun, -, hlowers⟩ := hd.run_commit hp.balanced
  exact ⟨d.patch, heffect, g', hrun, hlowers⟩

/-- The place of a form whose children are its leaves, but for those that are parts of it and hold
nothing. -/
theorem site_of_form (hp : Parsed g root) (hn : g.Below root n) (hform : isForm (g.kind n))
    (parts : List NodeId) (hparts : ∀ x ∈ parts, n ∈ g.parents x ∧ isPart (g.kind x))
    (hempty : ∀ x ∈ parts, g.limbs x = 0)
    (hleaves : ∀ x ∈ leaves, n ∈ g.parents x ∧ isPart (g.kind x) = false)
    (hall : ∀ x, n ∈ g.parents x → x ∈ parts ∨ x ∈ leaves) (hnodup : leaves.Nodup)
    (hbusy : ∀ x ∈ busy, (g.kind x).isSurface = false) (hturned : ∀ x ∈ turned, n ∈ g.parents x) :
    Site g root n (n :: parts) busy turned leaves where
  below := hn
  inner := by
    rintro rfl
    rw [hp.program] at hform
    cases hform
  self := Or.inl ⟨List.mem_cons_self, hform⟩
  child x hx hxn := hparts x ((List.mem_cons.1 hx).resolve_left hxn)
  leaf x hx _ := ⟨⟨n, List.mem_cons_self, (hleaves x hx).1⟩, (hleaves x hx).2⟩
  apart x hx hgone := by
    obtain ⟨hparent, hpart⟩ := hleaves x hx
    rcases List.mem_cons.1 hgone with rfl | hgone
    · exact not_mem_parents_self hp hn hparent
    · rw [(hparts x hgone).2] at hpart
      cases hpart
  nodup := hnodup
  exits y hy x hx := by
    rcases List.mem_cons.1 hy with rfl | hy
    · exact (hall x hx).imp_left (List.mem_cons_of_mem y)
    · obtain ⟨e, he, -⟩ := (mem_parents_limbs hp.balanced).1 hx
      rw [hempty y hy] at he
      exact absurd he (Multiset.notMem_zero e)
  keywords x hx hk := by
    rcases hall x hx with h | h
    · exact List.mem_cons_of_mem n h
    · have hpart := (hleaves x h).2
      rw [hk] at hpart
      cases hpart
  busy := hbusy
  turned := hturned

/-- The items of a node of a tree differ. -/
theorem nodup_items (hp : Parsed g root) (hn : g.Below root n) : (g.items n).Nodup :=
  nodup_items_of_parents hp.balanced fun _ hx => hp.tree _ (hn.of_mem_items hx)

/-- The children of a node that holds items are its items. -/
theorem mem_items_iff_parent (hp : Parsed g root) (hn : holdsItems g n) :
    n ∈ g.parents x ↔ x ∈ g.items n := by
  rw [mem_parents_limbs hp.balanced, mem_items]
  constructor
  · rintro ⟨e, he, rfl⟩
    obtain ⟨f, hf, rfl⟩ := mem_limbsOf.1 he
    exact ⟨f.role, List.all_eq_true.1 hn f hf, (mem_arms.1 hf).1⟩
  · rintro ⟨r, hr, he⟩
    exact exists_limb he (Role.isStructural_of_isItem hr)

end Ends

end Lowering

end TypeFlow
