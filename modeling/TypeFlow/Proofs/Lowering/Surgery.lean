import TypeFlow.Proofs.Lowering.Growth
/-!
# What one firing does to the tree

A rule of lowering fires at a node of a parsed program: some nodes drop out of the tree (`gone`),
and what hung below them (`leaves`) hangs in a new tree that takes their place (`Surgery`). All
else stays in reach (`Surgery.below_new`), nothing new comes into reach but what the rule made
(`Surgery.below_old`), and no node gets a second parent (`Surgery.length_parents_le`).
-/

namespace TypeFlow

namespace Lowering

open TypeFlow.Graph Program

/-! ## The place of a firing -/

/-- What a rule finds around the node at which it fires: `gone` drops out of the tree, and with it
hang the `leaves`. Only the node itself and its children get edges or other kinds. -/
structure Site (g : Graph) (root n : NodeId) (gone busy turned leaves : List NodeId) : Prop where
  below : g.Below root n
  inner : n ≠ root
  self : n ∈ gone ∧ isForm (g.kind n) ∨ n ∈ leaves ∧ takesKeywords (g.kind n)
  child : ∀ x ∈ gone, x ≠ n → n ∈ g.parents x ∧ isPart (g.kind x)
  leaf : ∀ x ∈ leaves, x ≠ n → (∃ y ∈ gone, y ∈ g.parents x) ∧ isPart (g.kind x) = false
  apart : ∀ x ∈ leaves, x ∉ gone
  nodup : leaves.Nodup
  exits : ∀ y ∈ gone, ∀ x, y ∈ g.parents x → x ∈ gone ∨ x ∈ leaves
  keywords : ∀ x, n ∈ g.parents x → g.kind x = .surface .kwArg → x ∈ gone
  busy : ∀ x ∈ busy, (g.kind x).isSurface = false
  turned : ∀ x ∈ turned, n ∈ g.parents x

/-- A rule fires at a site: the nodes that are gone lose their edges, and the free node `m` of the
new tree takes the place of `n`. -/
structure Surgery (g : Graph) (root n m : NodeId) (gone busy turned leaves : List NodeId)
    (left : NodeId → List Edge) (g' : Graph) (made : Multiset Wire) : Prop where
  site : Site g root n gone busy turned leaves
  growth : Growth g busy turned leaves left g' made {m}
  balanced : g'.Balanced
  same : n ∉ gone → m = n
  left_gone : ∀ x ∈ gone, limbsOf (left x) = 0
  left_other : ∀ x, x ∉ gone → x ≠ n → left x = (g.arms x).map (Edge.redirect n m)
  left_self : n ∉ gone → limbsOf (left n) = (g.limbs n).filter fun e => e.node ∉ gone

theorem isSurface_of_isPart {k : NodeKind} (h : isPart k) : k.isSurface := by
  unfold isPart at h
  split at h <;> first | rfl | cases h

theorem isSurface_of_isForm {k : NodeKind} (h : isForm k) : k.isSurface := by
  unfold isForm at h
  split at h <;> first | rfl | cases h

theorem isPart_of_isForm {k : NodeKind} (h : isForm k) : isPart k = false := by
  unfold isForm at h
  split at h <;> first | rfl | cases h

theorem isSurface_of_takesKeywords {k : NodeKind} (h : takesKeywords k) : k.isSurface = false := by
  rcases Bool.or_eq_true_iff.1 h with h | h <;> rw [of_decide_eq_true h] <;> rfl

theorem isPart_of_not_isSurface {k : NodeKind} (h : k.isSurface = false) : isPart k = false := by
  cases hp : isPart k with
  | false => rfl
  | true =>
    rw [isSurface_of_isPart hp] at h
    cases h

namespace Site

variable {g : Graph} {root n x y : NodeId} {gone busy turned leaves : List NodeId}

theorem isPart_self (hs : Site g root n gone busy turned leaves) : isPart (g.kind n) = false := by
  rcases hs.self with ⟨-, h⟩ | ⟨-, h⟩
  · exact isPart_of_isForm h
  · exact isPart_of_not_isSurface (isSurface_of_takesKeywords h)

theorem isPart_leaf (hs : Site g root n gone busy turned leaves) (hx : x ∈ leaves) :
    isPart (g.kind x) = false := by
  by_cases hxn : x = n
  · rw [hxn]
    exact hs.isPart_self
  · exact (hs.leaf x hx hxn).2

theorem isSurface_gone (hs : Site g root n gone busy turned leaves) (hx : x ∈ gone) :
    (g.kind x).isSurface := by
  by_cases hxn : x = n
  · subst hxn
    rcases hs.self with ⟨-, h⟩ | ⟨h, -⟩
    · exact isSurface_of_isForm h
    · exact absurd hx (hs.apart x h)
  · exact isSurface_of_isPart (hs.child x hx hxn).2

theorem self_mem (hs : Site g root n gone busy turned leaves) : n ∈ gone ∨ n ∈ leaves :=
  hs.self.imp And.left And.left

variable (hp : Parsed g root)
include hp

theorem below_gone (hs : Site g root n gone busy turned leaves) (hx : x ∈ gone) :
    g.Below root x := by
  by_cases hxn : x = n
  · rw [hxn]
    exact hs.below
  · exact hp.below_limb hs.below (hs.child x hx hxn).1

theorem below_leaf (hs : Site g root n gone busy turned leaves) (hx : x ∈ leaves) :
    g.Below root x := by
  by_cases hxn : x = n
  · rw [hxn]
    exact hs.below
  · obtain ⟨⟨y, hy, hxy⟩, -⟩ := hs.leaf x hx hxn
    exact hp.below_limb (hs.below_gone hp hy) hxy

theorem parent_gone (hs : Site g root n gone busy turned leaves) (hx : x ∈ gone) (hxn : x ≠ n)
    (hy : y ∈ g.parents x) : y = n :=
  hp.parent_unique (hs.below_gone hp hx) hy (hs.child x hx hxn).1

theorem parent_leaf (hs : Site g root n gone busy turned leaves) (hx : x ∈ leaves) (hxn : x ≠ n)
    (hy : y ∈ g.parents x) : y ∈ gone := by
  obtain ⟨⟨z, hz, hxz⟩, -⟩ := hs.leaf x hx hxn
  rwa [hp.parent_unique (hs.below_leaf hp hx) hy hxz]

theorem root_not_mem_gone (hs : Site g root n gone busy turned leaves) : root ∉ gone :=
  fun h => hp.not_mem_parents_root (hs.child root h (Ne.symm hs.inner)).1

theorem root_not_mem_leaves (hs : Site g root n gone busy turned leaves) : root ∉ leaves := by
  intro h
  obtain ⟨⟨y, -, hy⟩, -⟩ := hs.leaf root h (Ne.symm hs.inner)
  exact hp.not_mem_parents_root hy

theorem has_leaf (hs : Site g root n gone busy turned leaves) (hx : x ∈ leaves) : g.has x :=
  hp.has_below (hs.below_leaf hp hx)

end Site

namespace Surgery

variable {g g' : Graph} {root n m x y d : NodeId} {gone busy turned leaves : List NodeId}
  {left : NodeId → List Edge} {made : Multiset Wire} {e : Edge}

/-! ## Kinds -/

/-- A node of the program keeps its kind, unless it is a segment that stood behind a dot. -/
theorem kind_cases (hs : Surgery g root n m gone busy turned leaves left g' made) (hx : g.has x) :
    g'.kind x = g.kind x ∨ n ∈ g.parents x ∧
      (g.kind x = .expr .ident ∧ g'.kind x = .expr .fieldGet ∨
        g.kind x = .expr .call ∧ g'.kind x = .expr .methodCall) := by
  rcases hs.growth.kind x hx with h | ⟨hturned, k, hk, h⟩
  · exact Or.inl h
  · refine Or.inr ⟨hs.site.turned x hturned, ?_⟩
    rcases afterDot?_eq_some.1 hk with ⟨hold, rfl⟩ | ⟨hold, rfl⟩
    · exact Or.inl ⟨hold, h⟩
    · exact Or.inr ⟨hold, h⟩

theorem kind_eq_surface (hs : Surgery g root n m gone busy turned leaves left g' made)
    (hx : g.has x) (f : SurfaceKind) : g'.kind x = .surface f ↔ g.kind x = .surface f := by
  rcases hs.kind_cases hx with h | ⟨-, ⟨h, h'⟩ | ⟨h, h'⟩⟩
  · rw [h]
  · simp [h, h']
  · simp [h, h']

theorem isSurface_kind (hs : Surgery g root n m gone busy turned leaves left g' made)
    (hx : g.has x) : (g'.kind x).isSurface = (g.kind x).isSurface := by
  rcases hs.kind_cases hx with h | ⟨-, ⟨h, h'⟩ | ⟨h, h'⟩⟩ <;> simp [*, NodeKind.isSurface]

theorem takesKeywords_kind (hs : Surgery g root n m gone busy turned leaves left g' made)
    (hx : g.has x) : takesKeywords (g'.kind x) = takesKeywords (g.kind x) := by
  rcases hs.kind_cases hx with h | ⟨-, ⟨h, h'⟩ | ⟨h, h'⟩⟩ <;> simp [*, takesKeywords]

theorem isPart_kind (hs : Surgery g root n m gone busy turned leaves left g' made)
    (hx : g.has x) : isPart (g'.kind x) = isPart (g.kind x) := by
  rcases hs.kind_cases hx with h | ⟨-, ⟨h, h'⟩ | ⟨h, h'⟩⟩ <;> simp [*, isPart]

/-- What is still an identifier or a call was one before. -/
theorem kind_of_isSegment (hs : Surgery g root n m gone busy turned leaves left g' made)
    (hx : g.has x) (hseg : isSegment (g'.kind x)) : g'.kind x = g.kind x := by
  rcases hs.kind_cases hx with h | ⟨-, ⟨h, h'⟩ | ⟨h, h'⟩⟩
  · exact h
  · simp [h', isSegment] at hseg
  · simp [h', isSegment] at hseg

/-! ## The new tree -/

theorem new_mem (hs : Surgery g root n m gone busy turned leaves left g' made) :
    m ∈ leaves ∨ m ∈ newcomers g g' := by
  have hmem : m ∈ (leaves : Multiset NodeId) + newcomers g g' := by
    rw [← hs.growth.linear]
    exact Multiset.mem_add.2 (Or.inl (Multiset.mem_singleton_self m))
  exact (Multiset.mem_add.1 hmem).imp_left Multiset.mem_coe.1

/-- No part of a form hangs in the new tree. -/
theorem isPart_new (hs : Surgery g root n m gone busy turned leaves left g' made)
    (hp : Parsed g root) (hx : x ∈ leaves ∨ x ∈ newcomers g g') : isPart (g'.kind x) = false := by
  rcases hx with hx | hx
  · rw [hs.isPart_kind (hs.site.has_leaf hp hx)]
    exact hs.site.isPart_leaf hx
  · have hfiller := hs.growth.filler x hx
    refine isPart_of_not_isSurface ?_
    simpa using (Bool.and_eq_true_iff.1 hfiller).1

theorem not_has_of_newcomer (hs : Surgery g root n m gone busy turned leaves left g' made)
    (hx : x ∈ newcomers g g') : g.has x = false := ((mem_newcomers hs.growth.size).1 hx).2

theorem nodup_new (hs : Surgery g root n m gone busy turned leaves left g' made)
    (hp : Parsed g root) : ((leaves : Multiset NodeId) + newcomers g g').Nodup := by
  refine Multiset.nodup_add.2 ⟨Multiset.coe_nodup.2 hs.site.nodup, nodup_newcomers g g', ?_⟩
  refine Multiset.disjoint_left.2 fun hx hx' => ?_
  have hold := hs.site.has_leaf hp (Multiset.mem_coe.1 hx)
  rw [hs.not_has_of_newcomer hx'] at hold
  cases hold

/-! ## The edges -/

/-- What is left of the edges of a node: all, but for those of nodes that are gone and those to
children that are. -/
theorem limbsOf_left (hs : Surgery g root n m gone busy turned leaves left g' made)
    (hp : Parsed g root) (x : NodeId) : limbsOf (left x) = if x ∈ gone then 0 else
      ((g.limbs x).filter fun e => e.node ∈ gone → e.node = n).map (Edge.redirect n m) := by
  split
  · next hx => exact hs.left_gone x hx
  · next hx =>
    by_cases hxn : x = n
    · subst hxn
      have hm := hs.same hx
      subst hm
      have hid : Edge.redirect m m = id := funext fun e => Edge.redirect_self
      rw [hs.left_self hx, hid, Multiset.map_id]
      refine Multiset.filter_congr fun e _ => ⟨fun h h' => absurd h' h, fun h h' => hx ?_⟩
      exact h h' ▸ h'
    · rw [hs.left_other x hx hxn, limbsOf_redirect]
      refine congrArg _ (Multiset.filter_eq_self.2 fun e he hgone => ?_).symm
      by_contra hne
      exact hxn (hs.site.parent_gone hp hgone hne
        ((mem_parents_limbs hp.balanced).2 ⟨e, he, rfl⟩))

theorem mem_left (hs : Surgery g root n m gone busy turned leaves left g' made)
    (hp : Parsed g root) : e ∈ limbsOf (left x) ↔ x ∉ gone ∧
      ∃ f ∈ g.limbs x, (f.node ∈ gone → f.node = n) ∧ f.redirect n m = e := by
  rw [hs.limbsOf_left hp]
  split
  · next hx => simp [hx]
  · next hx => simp [hx, and_assoc]

theorem mem_limbs (hs : Surgery g root n m gone busy turned leaves left g' made)
    (hp : Parsed g root) : e ∈ g'.limbs x ↔ (x ∉ gone ∧
      ∃ f ∈ g.limbs x, (f.node ∈ gone → f.node = n) ∧ f.redirect n m = e) ∨ ⟨x, e⟩ ∈ made := by
  rw [hs.growth.limbs, Multiset.mem_add, hs.mem_left hp, mem_sprouts]

/-- An edge to a node that stays, other than `n`, is left as it is. -/
theorem limb_of_limb (hs : Surgery g root n m gone busy turned leaves left g' made)
    (hp : Parsed g root) (hx : x ∉ gone) (he : e ∈ g.limbs x) (hgone : e.node ∉ gone)
    (hn : e.node ≠ n) : e ∈ g'.limbs x :=
  (hs.mem_limbs hp).2
    (Or.inl ⟨hx, e, he, fun h => absurd h hgone, by rw [Edge.redirect, if_neg hn]⟩)

/-- An edge that does not lead into the new tree was there before. -/
theorem limb_cases (hs : Surgery g root n m gone busy turned leaves left g' made)
    (hp : Parsed g root) (he : e ∈ g'.limbs x) :
    e.node ∈ leaves ∨ e.node ∈ newcomers g g' ∨
      x ∉ gone ∧ e ∈ g.limbs x ∧ e.node ∉ gone ∧ e.node ≠ n := by
  rcases (hs.mem_limbs hp).1 he with ⟨hx, f, hf, hkeep, rfl⟩ | hmade
  · by_cases hfn : f.node = n
    · rw [Edge.redirect, if_pos hfn]
      exact hs.new_mem.imp_right Or.inl
    · rw [Edge.redirect, if_neg hfn]
      exact Or.inr (Or.inr ⟨hx, hf, fun h => hfn (hkeep h), hfn⟩)
  · exact (hs.growth.target hmade).imp_right Or.inl

/-! ## What is in reach -/

/-- What is in reach was there before and is not gone, or is new. -/
theorem below_old (hs : Surgery g root n m gone busy turned leaves left g' made)
    (hp : Parsed g root) (hx : g'.Below root x) :
    x ∈ newcomers g g' ∨ g.Below root x ∧ x ∉ gone := by
  induction hx with
  | root => exact Or.inr ⟨.root, hs.site.root_not_mem_gone hp⟩
  | @child y e hy he hstruct ih =>
    obtain ⟨f, hf, hnode⟩ := exists_limb he hstruct
    rw [← hnode]
    rcases hs.limb_cases hp hf with h | h | ⟨-, hlimb, hgone, -⟩
    · exact Or.inr ⟨hs.site.below_leaf hp h, hs.site.apart _ h⟩
    · exact Or.inl h
    · refine Or.inr ⟨?_, hgone⟩
      rcases ih with hnew | ⟨hbelow, -⟩
      · have hold := has_of_mem_limbs hlimb
        rw [hs.not_has_of_newcomer hnew] at hold
        cases hold
      · exact hbelow.limb hlimb

/-- All of the new tree is below its top. -/
theorem below_of_hangs (hs : Surgery g root n m gone busy turned leaves left g' made)
    (hp : Parsed g root) (hm : g'.Below root m) (hx : Hangs made m x) : g'.Below root x := by
  induction hx with
  | refl => exact hm
  | tail _ hw ih =>
    obtain ⟨w, hw, rfl, rfl⟩ := hw
    exact ih.limb ((hs.mem_limbs hp).2 (Or.inr hw))

theorem below_of_new (hs : Surgery g root n m gone busy turned leaves left g' made)
    (hp : Parsed g root) (hm : g'.Below root m) (hx : x ∈ leaves) : g'.Below root x := by
  obtain ⟨r, hr, hrx⟩ := hs.growth.rooted x (Multiset.mem_add.2 (Or.inl (Multiset.mem_coe.2 hx)))
  rw [Multiset.mem_singleton] at hr
  exact hs.below_of_hangs hp hm (hr ▸ hrx)

/-- What was in reach and is not gone is in reach; where something is gone or hangs in the new
tree, the top of that tree is. -/
theorem below_new (hs : Surgery g root n m gone busy turned leaves left g' made)
    (hp : Parsed g root) (hx : g.Below root x) :
    (x ∉ gone → g'.Below root x) ∧ (x ∈ gone ∨ x ∈ leaves → g'.Below root m) := by
  induction hx with
  | root =>
    refine ⟨fun _ => .root, ?_⟩
    rintro (h | h)
    · exact absurd h (hs.site.root_not_mem_gone hp)
    · exact absurd h (hs.site.root_not_mem_leaves hp)
  | @child y e hy he hstruct ih =>
    obtain ⟨f, hf, hnode⟩ := exists_limb he hstruct
    rw [← hnode]
    have hparent : y ∈ g.parents f.node := (mem_parents_limbs hp.balanced).2 ⟨f, hf, rfl⟩
    by_cases hfn : f.node = n
    · -- the edge that led to `n` leads to the top of the new tree
      have hm : g'.Below root m := by
        by_cases hygone : y ∈ gone
        · exact ih.2 (Or.inl hygone)
        · have hlimb := (hs.mem_limbs hp).2
            (Or.inl ⟨hygone, f, hf, fun _ => hfn, (rfl : f.redirect n m = _)⟩)
          have hbelow := (ih.1 hygone).limb hlimb
          rwa [Edge.node_redirect, if_pos hfn] at hbelow
      exact ⟨fun hgone => by rw [hfn, ← hs.same (hfn ▸ hgone)]; exact hm, fun _ => hm⟩
    · by_cases hygone : y ∈ gone
      · have hm := ih.2 (Or.inl hygone)
        exact ⟨fun hgone => hs.below_of_new hp hm
          ((hs.site.exits y hygone _ hparent).resolve_left hgone), fun _ => hm⟩
      · refine ⟨fun hgone => (ih.1 hygone).limb (hs.limb_of_limb hp hygone hf hgone hfn), ?_⟩
        rintro (hgone | hleaf)
        · obtain rfl := hs.site.parent_gone hp hgone hfn hparent
          exact ih.2 hs.site.self_mem
        · exact absurd (hs.site.parent_leaf hp hleaf hfn hparent) hygone

/-! ## Parents -/

theorem count_sprouts (made : Multiset Wire) (s d : NodeId) :
    (sprouts made s).countP (·.node = d) =
      ((made.filter (·.edge.node = d)).map Wire.source).count s := by
  rw [sprouts, Multiset.countP_map, Multiset.count_map, Multiset.filter_filter,
    Multiset.filter_filter]
  refine congrArg _ (Multiset.filter_congr fun w _ => ?_)
  rw [and_comm, eq_comm (a := w.source)]

theorem count_parents_eq (hs : Surgery g root n m gone busy turned leaves left g' made)
    (s d : NodeId) : (g'.parents d).count s = (limbsOf (left s)).countP (·.node = d) +
      ((made.filter (·.edge.node = d)).map Wire.source).count s := by
  rw [count_parents_limbs hs.balanced, hs.growth.limbs, Multiset.countP_add, count_sprouts]

/-- As many new edges lead to a node as the accounts say. -/
theorem card_made (d : NodeId) : ((made.filter (·.edge.node = d)).map Wire.source).card =
    (made.map (·.edge.node)).count d := by
  rw [Multiset.card_map, Multiset.count_map]
  exact congrArg _ (Multiset.filter_congr fun w _ => eq_comm)

theorem countP_mono {α : Type} {p q : α → Prop} [DecidablePred p] [DecidablePred q]
    {s : Multiset α} (h : ∀ a ∈ s, p a → q a) : s.countP p ≤ s.countP q := by
  rw [Multiset.countP_eq_card_filter, Multiset.countP_eq_card_filter]
  have hboth : s.filter p = s.filter fun a => q a ∧ p a :=
    Multiset.filter_congr fun a ha => ⟨fun hp => ⟨h a ha hp, hp⟩, And.right⟩
  rw [hboth]
  exact Multiset.card_le_card (Multiset.monotone_filter_right s fun _ => And.left)

/-- Left edges to a node come from its parents, or from those of the node that it replaces. -/
theorem countP_left_le (hs : Surgery g root n m gone busy turned leaves left g' made)
    (hp : Parsed g root) {s d d' : NodeId}
    (hd : ∀ f ∈ g.limbs s, s ∉ gone → (f.redirect n m).node = d → f.node = d') :
    (limbsOf (left s)).countP (·.node = d) ≤ (g.parents d').count s := by
  rw [hs.limbsOf_left hp, count_parents_limbs hp.balanced]
  split
  · exact Nat.zero_le _
  · next hgone =>
    rw [Multiset.countP_map, ← Multiset.countP_eq_card_filter, Multiset.countP_filter]
    exact countP_mono fun f hf h => hd f hf hgone h.1

/-- A node outside of the new tree has no parents but those that it had. -/
theorem parents_le_of_other (hs : Surgery g root n m gone busy turned leaves left g' made)
    (hp : Parsed g root) (hleaf : d ∉ leaves) (hnew : d ∉ newcomers g g') :
    (g'.parents d : Multiset NodeId) ≤ g.parents d := by
  have hmade : (made.map (·.edge.node)).count d = 0 := by
    refine Multiset.count_eq_zero.2 fun h => ?_
    obtain ⟨w, hw, rfl⟩ := Multiset.mem_map.1 h
    rcases hs.growth.target hw with h | h
    · exact hleaf h
    · exact hnew h
  have hm : m ≠ d := by
    rintro rfl
    rcases hs.new_mem with h | h
    · exact hleaf h
    · exact hnew h
  refine Multiset.le_iff_count.2 fun s => ?_
  rw [← card_made, Multiset.card_eq_zero] at hmade
  rw [Multiset.coe_count, Multiset.coe_count, hs.count_parents_eq, hmade, Multiset.count_zero,
    Nat.add_zero]
  refine hs.countP_left_le hp fun f _ _ hf => ?_
  rw [Edge.node_redirect] at hf
  split at hf
  · exact absurd hf hm
  · exact hf

/-- The top of the new tree has the parents of the node that it replaces. -/
theorem parents_le_of_top (hs : Surgery g root n m gone busy turned leaves left g' made)
    (hp : Parsed g root) : (g'.parents m : Multiset NodeId) ≤ g.parents n := by
  have hmade : (made.map (·.edge.node)).count m = 0 := by
    have hcount := congrArg (Multiset.count m) hs.growth.linear
    have hone := Multiset.nodup_iff_count_le_one.1 (hs.nodup_new hp) m
    rw [Multiset.count_add, Multiset.count_singleton_self] at hcount
    omega
  refine Multiset.le_iff_count.2 fun s => ?_
  rw [← card_made, Multiset.card_eq_zero] at hmade
  rw [Multiset.coe_count, Multiset.coe_count, hs.count_parents_eq, hmade, Multiset.count_zero,
    Nat.add_zero]
  refine hs.countP_left_le hp fun f hf hgone hfm => ?_
  rw [Edge.node_redirect] at hfm
  split at hfm
  · next h => exact h
  · next hfn =>
    have hparent : s ∈ g.parents f.node := (mem_parents_limbs hp.balanced).2 ⟨f, hf, rfl⟩
    rcases hs.new_mem with h | h
    · exact absurd (hs.site.parent_leaf hp (hfm ▸ h) hfn hparent) hgone
    · have hold := hp.balanced.has_limb hf
      rw [hfm, hs.not_has_of_newcomer h] at hold
      cases hold

/-- Any other node of the new tree has the one parent that it got there. -/
theorem length_parents_of_new (hs : Surgery g root n m gone busy turned leaves left g' made)
    (hp : Parsed g root) (hd : d ∈ leaves ∨ d ∈ newcomers g g') (hdm : d ≠ m) :
    (g'.parents d).length ≤ 1 := by
  have hleft : ∀ s, (limbsOf (left s)).countP (·.node = d) = 0 := by
    refine fun s => Multiset.countP_eq_zero.2 fun e he hed => ?_
    obtain ⟨hgone, f, hf, -, rfl⟩ := (hs.mem_left hp).1 he
    rw [Edge.node_redirect] at hed
    split at hed
    · exact hdm hed.symm
    · next hfn =>
      rcases hd with h | h
      · have hparent : s ∈ g.parents f.node := (mem_parents_limbs hp.balanced).2 ⟨f, hf, rfl⟩
        exact hgone (hs.site.parent_leaf hp (hed ▸ h) hfn hparent)
      · have hold := hp.balanced.has_limb hf
        rw [hed, hs.not_has_of_newcomer h] at hold
        cases hold
  have hparents : (g'.parents d : Multiset NodeId) =
      (made.filter (·.edge.node = d)).map Wire.source := by
    refine Multiset.ext.2 fun s => ?_
    rw [Multiset.coe_count, hs.count_parents_eq, hleft, Nat.zero_add]
  calc (g'.parents d).length
      = (made.map (·.edge.node)).count d := by rw [← card_made, ← hparents, Multiset.coe_card]
    _ ≤ ({m} + made.map (·.edge.node)).count d := by rw [Multiset.count_add]; omega
    _ ≤ 1 := by
      rw [hs.growth.linear]
      exact Multiset.nodup_iff_count_le_one.1 (hs.nodup_new hp) d

theorem length_parents_le (hs : Surgery g root n m gone busy turned leaves left g' made)
    (hp : Parsed g root) (hx : g'.Below root x) : (g'.parents x).length ≤ 1 := by
  by_cases hnew : x ∈ leaves ∨ x ∈ newcomers g g'
  · by_cases hxm : x = m
    · subst hxm
      exact (Multiset.card_le_card (hs.parents_le_of_top hp)).trans (hp.tree n hs.site.below)
    · exact hs.length_parents_of_new hp hnew hxm
  · rw [not_or] at hnew
    have hbelow := ((hs.below_old hp hx).resolve_left hnew.2).1
    exact (Multiset.card_le_card (hs.parents_le_of_other hp hnew.1 hnew.2)).trans
      (hp.tree x hbelow)

theorem parents_root (hs : Surgery g root n m gone busy turned leaves left g' made)
    (hp : Parsed g root) : g'.parents root = [] := by
  have hnew : root ∉ newcomers g g' := by
    intro h
    have hold := hp.has_root
    rw [hs.not_has_of_newcomer h] at hold
    cases hold
  have hle := hs.parents_le_of_other hp (hs.site.root_not_mem_leaves hp) hnew
  rw [hp.top] at hle
  exact (Multiset.coe_eq_zero _).1 (Multiset.le_zero.1 hle)

end Surgery

end Lowering

end TypeFlow
