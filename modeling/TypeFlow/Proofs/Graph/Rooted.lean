import TypeFlow.Proofs.Graph.Limbs
/-!
# Trees in a graph

What lies below a root is a tree if every node there has one parent at most and the root has none
(`Graph.Rooted`). The way up from a node of a tree is then a list (`Graph.Ancestors`), and an upward
search goes along it (`Ancestors.nearestAncestor?_eq`): from a node below another one it comes to
that one first, unless something in between passes its test (`Rooted.nearestAncestor?_eq`).
-/

namespace TypeFlow

namespace Graph

variable {g : Graph} {root n m f : NodeId} {l l' : List NodeId} {p : NodeId → Bool}

/-! ## The way up -/

/-- The nodes above a node, the nearest first, where each has one parent and the last has none. -/
inductive Ancestors (g : Graph) : NodeId → List NodeId → Prop
  | top {n : NodeId} (h : g.parents n = []) : Ancestors g n []
  | step {n m : NodeId} {l : List NodeId} (h : g.parents n = [m]) (rest : Ancestors g m l) :
    Ancestors g n (m :: l)

namespace Ancestors

theorem functional (h : Ancestors g n l) (h' : Ancestors g n l') : l = l' := by
  induction h generalizing l' with
  | top hn =>
    cases h' with
    | top => rfl
    | step hn' => simp [hn] at hn'
  | step hn _ ih =>
    cases h' with
    | top hn' => simp [hn] at hn'
    | step hn' rest =>
      obtain rfl := List.singleton_inj.1 (hn.symm.trans hn')
      rw [ih rest]

theorem exists_suffix (h : Ancestors g n l) (hm : m ∈ l) :
    ∃ l₁ l₂, l = l₁ ++ m :: l₂ ∧ Ancestors g m l₂ := by
  induction h with
  | top => cases hm
  | @step n k l hn rest ih =>
    rcases List.mem_cons.1 hm with rfl | hm
    · exact ⟨[], l, rfl, rest⟩
    · obtain ⟨l₁, l₂, rfl, hl₂⟩ := ih hm
      exact ⟨k :: l₁, l₂, rfl, hl₂⟩

/-- No node is above itself. -/
theorem not_mem (h : Ancestors g n l) : n ∉ l := by
  intro hn
  obtain ⟨l₁, l₂, rfl, hl₂⟩ := h.exists_suffix hn
  have hlength := congrArg List.length (h.functional hl₂)
  simp only [List.length_append, List.length_cons] at hlength
  omega

theorem nodup (h : Ancestors g n l) : (n :: l).Nodup := by
  induction h with
  | top => simp
  | step hn rest ih => exact List.nodup_cons.2 ⟨(step hn rest).not_mem, ih⟩

theorem has (hg : g.Balanced) (h : Ancestors g n l) : ∀ m ∈ l, g.has m := by
  induction h with
  | top => nofun
  | @step n k l hn _ ih =>
    refine List.forall_mem_cons.2 ⟨?_, ih⟩
    obtain ⟨e, he, -⟩ := (mem_parents_limbs hg).1 (show k ∈ g.parents n by simp [hn])
    exact has_of_mem_limbs he

end Ancestors

/-- A list of nodes of a graph without repetitions is no longer than the graph is large. -/
theorem length_le_size (hl : l.Nodup) (hhas : ∀ n ∈ l, g.has n) : l.length ≤ g.size := by
  have hindex : (l.map NodeId.index).Nodup :=
    hl.map fun a b h => by cases a; cases b; simpa using h
  have hsub : l.map NodeId.index ⊆ List.range g.size := by
    intro i hi
    obtain ⟨n, hn, rfl⟩ := List.mem_map.1 hi
    simpa [has] using hhas n hn
  simpa using (hindex.subperm hsub).length_le

/-- A list of nodes, each the one parent of the one before. -/
inductive Climbs (g : Graph) : NodeId → List NodeId → NodeId → Prop
  | here (n : NodeId) : Climbs g n [] n
  | step {n k m : NodeId} {l : List NodeId} (h : g.parents n = [k]) (rest : Climbs g k l m) :
    Climbs g n (k :: l) m

theorem Ancestors.climbs (h : Ancestors g n l) : ∃ m, Climbs g n l m ∧ g.parents m = [] := by
  induction h with
  | @top n hn => exact ⟨n, .here n, hn⟩
  | step hn _ ih =>
    obtain ⟨m, hclimbs, hm⟩ := ih
    exact ⟨m, .step hn hclimbs, hm⟩

/-- An upward search goes along a list of sole parents first. -/
theorem ascend_of_climbs {start : NodeId} (hl : Climbs g n l m) (steps : Nat) :
    ∀ met : List NodeId, (met ++ l).Nodup →
      g.ascend (.up start) (l.length + steps) met [n] =
        g.ascend (.up start) steps (met ++ l) [m] := by
  induction hl with
  | here n => simp
  | @step n k m l hn rest ih =>
    intro met hnodup
    have hk : k ∉ met := fun hk => (List.nodup_append.1 hnodup).2.2 k hk k List.mem_cons_self rfl
    rw [List.length_cons, Nat.add_right_comm, ascend_cons, above_up, hn, unmet, if_neg hk, unmet]
    simpa using ih (met ++ [k]) (by simpa using hnodup)

/-- An upward search goes along the list of ancestors. -/
theorem ascend_eq {start : NodeId} {steps : Nat} {met : List NodeId} (h : Ancestors g n l)
    (hnodup : (met ++ l).Nodup) (hsteps : l.length < steps) :
    g.ascend (.up start) steps met [n] = met ++ l := by
  obtain ⟨m, hclimbs, hm⟩ := h.climbs
  obtain ⟨rest, rfl⟩ := Nat.exists_eq_add_of_lt hsteps
  rw [Nat.add_assoc, ascend_of_climbs hclimbs _ _ hnodup, ascend_cons, above_up, hm, unmet,
    List.append_nil]
  cases rest <;> rfl

/-- The nearest ancestor of a sort is the first in the list of ancestors. -/
theorem Ancestors.nearestAncestor?_eq (hg : g.Balanced) (hn : g.has n) (h : Ancestors g n l)
    (p : NodeId → Bool) : g.nearestAncestor? n p = l.find? p := by
  have hlength : (n :: l).length ≤ g.size :=
    length_le_size h.nodup (List.forall_mem_cons.2 ⟨hn, h.has hg⟩)
  have hascend : g.ascend (.up n) (g.size + 1) [n] [n] = n :: l :=
    ascend_eq h h.nodup (Nat.lt_succ_of_lt hlength)
  have hfilter : (n :: l).filter (· ≠ n) = l := by
    rw [List.filter_cons_of_neg (by simp), List.filter_eq_self]
    intro m hm
    simpa using fun hmn : m = n => h.not_mem (hmn ▸ hm)
  change ((g.ascend (.up n) (g.size + 1) [n] [n]).filter (· ≠ n)).find? p = _
  rw [hascend, hfilter]

/-! ## Trees -/

/-- The nodes below a root form a tree. -/
structure Rooted (g : Graph) (root : NodeId) : Prop where
  kept : g.WellKept
  has : g.has root
  top : g.parents root = []
  tree : ∀ n, g.Below root n → (g.parents n).length ≤ 1

namespace Rooted

variable {r : Role}

theorem has_below (h : Rooted g root) (hn : g.Below root n) : g.has n := by
  cases hn with
  | root => exact h.has
  | child _ he _ => exact h.kept.has_target he

/-- The source of an edge in the tree is the one parent of its target. -/
theorem parents_eq (h : Rooted g root) (hn : g.Below root n) (he : ⟨r, m⟩ ∈ g.outgoing n)
    (hr : r.isStructural) : g.parents m = [n] := by
  have hmem : n ∈ g.parents m := (mem_parents_iff h.kept).2 ⟨r, hr, he⟩
  have hone := h.tree m (hn.child he hr)
  rcases hp : g.parents m with _ | ⟨k, ks⟩
  · simp [hp] at hmem
  · obtain rfl : ks = [] := by
      rw [hp, List.length_cons] at hone
      exact List.length_eq_zero_iff.1 (by omega)
    rw [hp, List.mem_singleton] at hmem
    rw [hmem]

theorem parents_of_mem_items (h : Rooted g root) (hn : g.Below root n) (hm : m ∈ g.items n) :
    g.parents m = [n] := by
  obtain ⟨r, hr, he⟩ := mem_items.1 hm
  exact h.parents_eq hn he (Role.isStructural_of_isItem hr)

theorem parents_of_child? (h : Rooted g root) (hn : g.Below root n) (hm : g.child? n r = some m)
    (hr : r.isStructural) : g.parents m = [n] :=
  h.parents_eq hn (mem_of_child? hm) hr

/-- The items of a node of a tree differ. -/
theorem nodup_items (h : Rooted g root) (hn : g.Below root n) : (g.items n).Nodup :=
  nodup_items_of_parents h.kept.balanced fun _ hx => h.tree _ (hn.of_mem_items hx)

/-- What lies below a node and is not that node has its parent there too. -/
theorem below_parent (h : Rooted g root) (hf : g.Below root f) (hn : g.Below f n) (hne : n ≠ f)
    (hm : g.parents n = [m]) : g.Below f m := by
  cases hn with
  | root => exact absurd rfl hne
  | child hk he hs =>
    obtain rfl := List.singleton_inj.1 ((h.parents_eq (hf.trans hk) he hs).symm.trans hm)
    exact hk

/-- The root lies below no other node. -/
theorem eq_root_of_below (h : Rooted g root) (hf : g.Below root f) (hroot : g.Below f root) :
    f = root := by
  cases hroot with
  | root => rfl
  | child hk he hs =>
    have hparents := h.parents_eq (hf.trans hk) he hs
    rw [h.top] at hparents
    cases hparents

theorem exists_ancestors (h : Rooted g root) (hn : g.Below root n) : ∃ l, Ancestors g n l := by
  induction hn with
  | root => exact ⟨[], .top h.top⟩
  | child hn he hs ih =>
    obtain ⟨l, hl⟩ := ih
    exact ⟨_, .step (h.parents_eq hn he hs) hl⟩

/-- The way up from below a node leads through that node. -/
theorem exists_ancestors_through (h : Rooted g root) (hf : g.Below root f) (hn : g.Below f n)
    (hl : Ancestors g f l) (hne : n ≠ f) :
    ∃ l', Ancestors g n (l' ++ f :: l) ∧ ∀ m ∈ l', g.Below f m ∧ m ≠ f := by
  induction hn with
  | root => exact absurd rfl hne
  | @child k e hk he hs ih =>
    have hparent : g.parents e.node = [k] := h.parents_eq (hf.trans hk) he hs
    by_cases hkf : k = f
    · subst hkf
      exact ⟨[], .step hparent hl, nofun⟩
    · obtain ⟨l', hl', hbetween⟩ := ih hkf
      exact ⟨k :: l', .step hparent hl', List.forall_mem_cons.2 ⟨⟨hk, hkf⟩, hbetween⟩⟩

/-- From a node below another one, an upward search comes to that one first, unless something in
between passes its test. -/
theorem nearestAncestor?_eq (h : Rooted g root) (hf : g.Below root f) (hn : g.Below f n)
    (hne : n ≠ f) (hp : p f) (hbetween : ∀ m, g.Below f m → m ≠ f → p m = false) :
    g.nearestAncestor? n p = some f := by
  obtain ⟨l, hl⟩ := h.exists_ancestors hf
  obtain ⟨l', hl', hall⟩ := h.exists_ancestors_through hf hn hl hne
  have hnone : l'.find? p = none :=
    List.find?_eq_none.2 fun m hm => by simp [hbetween m (hall m hm).1 (hall m hm).2]
  rw [hl'.nearestAncestor?_eq h.kept.balanced (h.has_below (hf.trans hn)), List.find?_append, hnone,
    List.find?_cons_of_pos hp, Option.none_or]

/-- A parent is not below its child. -/
theorem not_below_of_parents (h : Rooted g root) (hn : g.Below root n) (hm : g.Below root m)
    (hparents : g.parents m = [n]) : ¬g.Below m n := by
  intro hbelow
  obtain ⟨l, hl⟩ := h.exists_ancestors hn
  have hl' : Ancestors g m (n :: l) := .step hparents hl
  by_cases hnm : n = m
  · exact hl'.not_mem (hnm ▸ List.mem_cons_self)
  · obtain ⟨l'', hl'', -⟩ := h.exists_ancestors_through hm hbelow hl' hnm
    exact hl''.not_mem (by simp)

end Rooted

end Graph

end TypeFlow
