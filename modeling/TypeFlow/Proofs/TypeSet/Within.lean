import Mathlib.Tactic.SplitIfs
import TypeFlow.Proofs.TypeSet.Canonical
/-!
# Type sets by what lies below them

A set admits a leaf if it is everything or has a leaf that the first one refines (`Admits`).
`Sub a b` says that every leaf of `a` is a leaf of `b`, and `Within a b` only that `b` admits it;
everything lies in nothing but itself. On canonical sets a union admits what one operand does and
an intersection what both do, and a test for change fails exactly if the operand is a `Sub` of
the union (`unionChanges_eq_false`) or the intersection is the set again
(`interChanges_eq_false`).
-/

namespace TypeFlow

namespace TypeSet

variable {a b c x y : TypeSet}

/-- The set is everything or has a leaf above the given one. -/
def Admits (a x : TypeSet) : Prop := a = .univ ∨ ∃ y ∈ a.leaves, Refines x y

/-- Every leaf of the one set is a leaf of the other. -/
def Sub (a b : TypeSet) : Prop := b = .univ ∨ (a ≠ .univ ∧ ∀ x ∈ a.leaves, x ∈ b.leaves)

/-- Every leaf of the one set lies below a leaf of the other. -/
def Within (a b : TypeSet) : Prop := b = .univ ∨ (a ≠ .univ ∧ ∀ x ∈ a.leaves, Admits b x)

instance : Decidable (Admits a x) :=
  inferInstanceAs (Decidable (a = .univ ∨ ∃ y ∈ a.leaves, Refines x y))

instance : Decidable (Sub a b) :=
  inferInstanceAs (Decidable (b = .univ ∨ (a ≠ .univ ∧ ∀ x ∈ a.leaves, x ∈ b.leaves)))

instance : Decidable (Within a b) :=
  inferInstanceAs (Decidable (b = .univ ∨ (a ≠ .univ ∧ ∀ x ∈ a.leaves, Admits b x)))

/-- A canonical set, not everything, whose leaves are those with a property. -/
structure HasLeaves (a : TypeSet) (p : TypeSet → Prop) : Prop where
  canonical : Canonical a
  ne_univ : a ≠ .univ
  mem_iff : ∀ x, x ∈ a.leaves ↔ p x

/-- Sets with the same leaves are equal. -/
theorem HasLeaves.eq {p q : TypeSet → Prop} (ha : HasLeaves a p) (hb : HasLeaves b q)
    (h : ∀ x, p x ↔ q x) : a = b := by
  refine ha.canonical.ext hb.canonical ha.ne_univ hb.ne_univ fun x => ?_
  rw [ha.mem_iff, hb.mem_iff, h]

theorem hasLeaves_ofLeaves {xs : List TypeSet} {p : TypeSet → Prop} (h : ∀ x ∈ xs, Proper x)
    (hp : ∀ x, x ∈ xs ↔ p x) : HasLeaves (ofLeaves xs) p :=
  ⟨canonical_ofLeaves h, ofLeaves_ne_univ h, fun x => (mem_leaves_ofLeaves h).trans (hp x)⟩

/-! ## Unions -/

theorem leaves_of_not_anyOf (he : a ≠ .empty) (h : ∀ xs, a = .anyOf xs → False) :
    a.leaves = [a] := by
  cases a with
  | anyOf xs => exact (h xs rfl).elim
  | empty => exact absurd rfl he
  | _ => rfl

/-- A union of sets other than everything is one of them, if that holds the leaves of the other, or
collects the leaves of both. -/
theorem union_cases (hua : a ≠ .univ) (hub : b ≠ .univ) :
    (a.union b = a ∧ ∀ x ∈ b.leaves, x ∈ a.leaves) ∨
      (a.union b = b ∧ ∀ x ∈ a.leaves, x ∈ b.leaves) ∨
        a.union b = ofLeaves (a.leaves ++ b.leaves) ∨
          a.union b = ofLeaves (b.leaves ++ a.leaves) := by
  unfold union
  split_ifs with h hae hbe hab
  · exact absurd h (by simp [hua, hub])
  · exact Or.inr (Or.inl ⟨rfl, by simp [hae, leaves]⟩)
  · exact Or.inl ⟨rfl, by simp [hbe, leaves]⟩
  · exact Or.inl ⟨rfl, by simp [hab]⟩
  · split
    · exact Or.inr (Or.inr (Or.inl rfl))
    · next xs hleaf =>
      rw [leaves_of_not_anyOf hbe hleaf]
      split_ifs with hmem
      · exact Or.inl ⟨rfl, by simpa [leaves] using hmem⟩
      · exact Or.inr (Or.inr (Or.inl rfl))
    · next xs hleaf =>
      rw [leaves_of_not_anyOf hae hleaf]
      split_ifs with hmem
      · exact Or.inr (Or.inl ⟨rfl, by simpa [leaves] using hmem⟩)
      · exact Or.inr (Or.inr (Or.inr rfl))
    · next hla hlb _ =>
      rw [leaves_of_not_anyOf hae hla, leaves_of_not_anyOf hbe hlb]
      exact Or.inr (Or.inr (Or.inl rfl))

/-- The union of two canonical sets, neither of them everything, holds the leaves of both. -/
theorem hasLeaves_union (ha : Canonical a) (hb : Canonical b) (hua : a ≠ .univ) (hub : b ≠ .univ) :
    HasLeaves (a.union b) fun x => x ∈ a.leaves ∨ x ∈ b.leaves := by
  have hproper : ∀ x ∈ a.leaves ++ b.leaves, Proper x := fun x hx =>
    (List.mem_append.1 hx).elim (ha.proper hua) (hb.proper hub)
  rcases union_cases hua hub with ⟨h, hsub⟩ | ⟨h, hsub⟩ | h | h
  · rw [h]
    exact ⟨ha, hua, fun x => ⟨Or.inl, fun hx => hx.elim id (hsub x)⟩⟩
  · rw [h]
    exact ⟨hb, hub, fun x => ⟨Or.inr, fun hx => hx.elim (hsub x) id⟩⟩
  · exact h ▸ hasLeaves_ofLeaves hproper fun x => List.mem_append
  · exact h ▸ hasLeaves_ofLeaves (fun x hx => hproper x (by simpa [or_comm] using hx))
      fun x => List.mem_append.trans or_comm

@[simp] theorem union_univ (a : TypeSet) : a.union .univ = .univ := by simp [union]

@[simp] theorem univ_union (a : TypeSet) : univ.union a = .univ := by simp [union]

theorem canonical_union (ha : Canonical a) (hb : Canonical b) : Canonical (a.union b) := by
  by_cases hua : a = .univ
  · rw [hua, univ_union]
    exact canonical_univ
  by_cases hub : b = .univ
  · rw [hub, union_univ]
    exact canonical_univ
  exact (hasLeaves_union ha hb hua hub).canonical

/-! ## Intersections -/

theorem mem_meets_iff {xs ys : List TypeSet} : x ∈ meets xs ys ↔
    (x ∈ xs ∨ x ∈ ys) ∧ (∃ y ∈ xs, Refines x y) ∧ ∃ y ∈ ys, Refines x y := by
  rw [mem_meets]
  constructor
  · rintro (⟨hx, hy⟩ | ⟨hx, hy⟩)
    · exact ⟨Or.inl hx, ⟨x, hx, .refl x⟩, hy⟩
    · exact ⟨Or.inr hx, hy, x, hx, .refl x⟩
  · rintro ⟨hx | hx, hxs, hys⟩
    · exact Or.inl ⟨hx, hys⟩
    · exact Or.inr ⟨hx, hxs⟩

/-- The intersection of two canonical sets, neither of them everything, holds the leaves of either
that both admit. -/
theorem hasLeaves_inter (ha : Canonical a) (hb : Canonical b) (hua : a ≠ .univ) (hub : b ≠ .univ) :
    HasLeaves (a.inter b)
      fun x => (x ∈ a.leaves ∨ x ∈ b.leaves) ∧ Admits a x ∧ Admits b x := by
  have hadmits : ∀ {c x}, c ≠ .univ → (Admits c x ↔ ∃ y ∈ c.leaves, Refines x y) := by
    intro c x hc
    simp [Admits, hc]
  have hproper : ∀ x ∈ meets a.leaves b.leaves, Proper x := fun x hx =>
    (mem_meets_iff.1 hx).1.elim (ha.proper hua) (hb.proper hub)
  have hmeets := hasLeaves_ofLeaves hproper fun x => mem_meets_iff
  simp only [hadmits hua, hadmits hub]
  unfold inter
  split_ifs with he hab
  · refine ⟨canonical_empty, nofun, fun x => ⟨nofun, ?_⟩⟩
    rintro ⟨-, ⟨y, hy, -⟩, z, hz, -⟩
    rcases he with rfl | rfl
    · exact absurd hy (by simp [leaves])
    · exact absurd hz (by simp [leaves])
  · refine ⟨ha, hua, fun x => ⟨fun hx => ⟨Or.inl hx, ⟨x, hx, .refl x⟩, x, hab ▸ hx, .refl x⟩, ?_⟩⟩
    rintro ⟨hx | hx, -⟩
    · exact hx
    · exact hab ▸ hx
  · exact hmeets

@[simp] theorem inter_univ (a : TypeSet) : a.inter .univ = a := by
  unfold inter
  split_ifs with h h' <;> simp_all

@[simp] theorem univ_inter (a : TypeSet) : univ.inter a = a := by
  unfold inter
  split_ifs with h <;> simp_all

theorem canonical_inter (ha : Canonical a) (hb : Canonical b) : Canonical (a.inter b) := by
  by_cases hua : a = .univ
  · rwa [hua, univ_inter]
  by_cases hub : b = .univ
  · rwa [hub, inter_univ]
  exact (hasLeaves_inter ha hb hua hub).canonical

theorem inter_eq_univ (ha : Canonical a) (hb : Canonical b) :
    a.inter b = .univ ↔ a = .univ ∧ b = .univ := by
  constructor
  · intro h
    by_cases hua : a = .univ
    · subst hua
      exact ⟨rfl, by simpa using h⟩
    by_cases hub : b = .univ
    · subst hub
      exact ⟨by simpa using h, rfl⟩
    exact absurd h (hasLeaves_inter ha hb hua hub).ne_univ
  · rintro ⟨rfl, rfl⟩
    simp

/-! ## Sets over a family of leaves -/

/-- A canonical set that is everything or has its leaves in a family. -/
def Over (P : TypeSet → Prop) (a : TypeSet) : Prop :=
  Canonical a ∧ (a ≠ .univ → ∀ x ∈ a.leaves, P x)

section Over

variable {P : TypeSet → Prop}

theorem over_univ : Over P .univ := ⟨canonical_univ, fun h => absurd rfl h⟩

theorem over_empty : Over P .empty := ⟨canonical_empty, fun _ => nofun⟩

theorem Proper.over (hx : Proper x) (h : P x) : Over P x := by
  refine ⟨hx.canonical, fun _ y hy => ?_⟩
  obtain rfl : y = x := by simpa [hx.leaves] using hy
  exact h

theorem HasLeaves.over {p : TypeSet → Prop} (h : HasLeaves a p) (hp : ∀ x, p x → P x) : Over P a :=
  ⟨h.canonical, fun _ x hx => hp x ((h.mem_iff x).1 hx)⟩

theorem over_ofLeaves {xs : List TypeSet} (h : ∀ x ∈ xs, Proper x ∧ P x) : Over P (ofLeaves xs) :=
  (hasLeaves_ofLeaves (fun x hx => (h x hx).1) fun _ => Iff.rfl).over fun x hx => (h x hx).2

theorem over_union (ha : Over P a) (hb : Over P b) : Over P (a.union b) := by
  by_cases hua : a = .univ
  · rw [hua, univ_union]
    exact over_univ
  by_cases hub : b = .univ
  · rw [hub, union_univ]
    exact over_univ
  exact (hasLeaves_union ha.1 hb.1 hua hub).over fun x hx => hx.elim (ha.2 hua x) (hb.2 hub x)

theorem over_inter (ha : Over P a) (hb : Over P b) : Over P (a.inter b) := by
  by_cases hua : a = .univ
  · rwa [hua, univ_inter]
  by_cases hub : b = .univ
  · rwa [hub, inter_univ]
  exact (hasLeaves_inter ha.1 hb.1 hua hub).over fun x hx =>
    hx.1.elim (ha.2 hua x) (hb.2 hub x)

theorem Over.mono {Q : TypeSet → Prop} (h : ∀ x, P x → Q x) (ha : Over P a) : Over Q a :=
  ⟨ha.1, fun hua x hx => h x (ha.2 hua x hx)⟩

end Over

/-! ## What a set admits -/

theorem admits_of_mem (hx : x ∈ a.leaves) : Admits a x := Or.inr ⟨x, hx, .refl x⟩

theorem Admits.of_refines (h : Admits a y) (hxy : Refines x y) : Admits a x := by
  rcases h with h | ⟨z, hz, hyz⟩
  · exact Or.inl h
  · exact Or.inr ⟨z, hz, hxy.trans hyz⟩

theorem Admits.mono (h : Within a b) (hx : Admits a x) : Admits b x := by
  rcases h with h | ⟨hua, h⟩
  · exact Or.inl h
  · obtain ⟨y, hy, hxy⟩ := hx.resolve_left hua
    exact (h y hy).of_refines hxy

theorem admits_union (ha : Canonical a) (hb : Canonical b) :
    Admits (a.union b) x ↔ Admits a x ∨ Admits b x := by
  by_cases hua : a = .univ
  · simp [hua, Admits]
  by_cases hub : b = .univ
  · simp [hub, Admits]
  have hab := hasLeaves_union ha hb hua hub
  simp only [Admits, hab.ne_univ, hua, hub, false_or, hab.mem_iff]
  constructor
  · rintro ⟨y, hy | hy, hxy⟩
    · exact Or.inl ⟨y, hy, hxy⟩
    · exact Or.inr ⟨y, hy, hxy⟩
  · rintro (⟨y, hy, hxy⟩ | ⟨y, hy, hxy⟩)
    · exact ⟨y, Or.inl hy, hxy⟩
    · exact ⟨y, Or.inr hy, hxy⟩

theorem admits_inter (ha : Canonical a) (hb : Canonical b) :
    Admits (a.inter b) x ↔ Admits a x ∧ Admits b x := by
  by_cases hua : a = .univ
  · simp [hua, Admits]
  by_cases hub : b = .univ
  · simp [hub, Admits]
  have hab := hasLeaves_inter ha hb hua hub
  constructor
  · intro h
    obtain ⟨y, hy, hxy⟩ := h.resolve_left hab.ne_univ
    obtain ⟨-, hya, hyb⟩ := (hab.mem_iff y).1 hy
    exact ⟨hya.of_refines hxy, hyb.of_refines hxy⟩
  · rintro ⟨hxa, hxb⟩
    obtain ⟨y, hy, hxy⟩ := hxa.resolve_left hua
    obtain ⟨z, hz, hxz⟩ := hxb.resolve_left hub
    -- the leaves above `x` form a chain, and the lower one is in the intersection
    rcases hxy.chain hxz with hyz | hzy
    · exact Or.inr ⟨y, (hab.mem_iff y).2
        ⟨Or.inl hy, admits_of_mem hy, (admits_of_mem hz).of_refines hyz⟩, hxy⟩
    · exact Or.inr ⟨z, (hab.mem_iff z).2
        ⟨Or.inr hz, (admits_of_mem hy).of_refines hzy, admits_of_mem hz⟩, hxz⟩

/-! ## The two inclusions -/

@[simp] theorem sub_univ (a : TypeSet) : Sub a .univ := Or.inl rfl

@[simp] theorem univ_sub : Sub .univ a ↔ a = .univ := by simp [Sub]

@[simp] theorem empty_sub (a : TypeSet) : Sub .empty a := Or.inr ⟨nofun, nofun⟩

@[simp] theorem within_univ (a : TypeSet) : Within a .univ := Or.inl rfl

@[simp] theorem univ_within : Within .univ a ↔ a = .univ := by simp [Within]

@[simp] theorem empty_within (a : TypeSet) : Within .empty a := Or.inr ⟨nofun, nofun⟩

theorem Sub.refl (a : TypeSet) : Sub a a := by
  by_cases ha : a = .univ
  · exact Or.inl ha
  · exact Or.inr ⟨ha, fun _ hx => hx⟩

theorem Sub.trans (hab : Sub a b) (hbc : Sub b c) : Sub a c := by
  rcases hbc with h | ⟨hub, hbc⟩
  · exact Or.inl h
  · obtain ⟨hua, hab⟩ := hab.resolve_left hub
    exact Or.inr ⟨hua, fun x hx => hbc x (hab x hx)⟩

theorem Sub.antisymm (ha : Canonical a) (hb : Canonical b) (hab : Sub a b) (hba : Sub b a) :
    a = b := by
  by_cases hua : a = .univ
  · subst hua
    exact (univ_sub.1 hab).symm
  by_cases hub : b = .univ
  · subst hub
    exact univ_sub.1 hba
  exact ha.ext hb hua hub fun x =>
    ⟨(hab.resolve_left hub).2 x, (hba.resolve_left hua).2 x⟩

theorem Sub.within (h : Sub a b) : Within a b :=
  h.imp_right fun ⟨hua, h⟩ => ⟨hua, fun x hx => admits_of_mem (h x hx)⟩

theorem Within.refl (a : TypeSet) : Within a a := (Sub.refl a).within

theorem Within.trans (hab : Within a b) (hbc : Within b c) : Within a c := by
  by_cases hub : b = .univ
  · subst hub
    exact Or.inl (univ_within.1 hbc)
  · obtain ⟨hua, hab⟩ := hab.resolve_left hub
    exact Or.inr ⟨hua, fun x hx => (hab x hx).mono hbc⟩

theorem within_empty (ha : Canonical a) (h : Within a .empty) : a = .empty := by
  obtain ⟨-, h⟩ := h.resolve_left nofun
  refine ha.leaves_eq_nil.1 (List.eq_nil_iff_forall_not_mem.2 fun x hx => ?_)
  obtain ⟨y, hy, -⟩ := (h x hx).resolve_left nofun
  exact absurd hy (by simp [leaves])

theorem sub_empty (ha : Canonical a) (h : Sub a .empty) : a = .empty := within_empty ha h.within

theorem sub_union_left (ha : Canonical a) (hb : Canonical b) : Sub a (a.union b) := by
  by_cases hua : a = .univ
  · simp [hua]
  by_cases hub : b = .univ
  · simp [hub]
  exact Or.inr ⟨hua, fun x hx => ((hasLeaves_union ha hb hua hub).mem_iff x).2 (Or.inl hx)⟩

theorem sub_union_right (ha : Canonical a) (hb : Canonical b) : Sub b (a.union b) := by
  by_cases hua : a = .univ
  · simp [hua]
  by_cases hub : b = .univ
  · simp [hub]
  exact Or.inr ⟨hub, fun x hx => ((hasLeaves_union ha hb hua hub).mem_iff x).2 (Or.inr hx)⟩

theorem union_sub (ha : Canonical a) (hb : Canonical b) (hac : Sub a c) (hbc : Sub b c) :
    Sub (a.union b) c := by
  by_cases huc : c = .univ
  · exact Or.inl huc
  obtain ⟨hua, hac⟩ := hac.resolve_left huc
  obtain ⟨hub, hbc⟩ := hbc.resolve_left huc
  have hab := hasLeaves_union ha hb hua hub
  exact Or.inr ⟨hab.ne_univ, fun x hx => ((hab.mem_iff x).1 hx).elim (hac x) (hbc x)⟩

theorem union_within (ha : Canonical a) (hb : Canonical b) (hac : Within a c)
    (hbc : Within b c) : Within (a.union b) c := by
  by_cases huc : c = .univ
  · exact Or.inl huc
  obtain ⟨hua, hac⟩ := hac.resolve_left huc
  obtain ⟨hub, hbc⟩ := hbc.resolve_left huc
  have hab := hasLeaves_union ha hb hua hub
  exact Or.inr ⟨hab.ne_univ, fun x hx => ((hab.mem_iff x).1 hx).elim (hac x) (hbc x)⟩

theorem inter_within_left (ha : Canonical a) (hb : Canonical b) : Within (a.inter b) a := by
  by_cases hu : a.inter b = .univ
  · obtain ⟨rfl, rfl⟩ := (inter_eq_univ ha hb).1 hu
    simp
  · exact Or.inr ⟨hu, fun x hx => ((admits_inter ha hb).1 (admits_of_mem hx)).1⟩

theorem inter_within_right (ha : Canonical a) (hb : Canonical b) : Within (a.inter b) b := by
  by_cases hu : a.inter b = .univ
  · obtain ⟨rfl, rfl⟩ := (inter_eq_univ ha hb).1 hu
    simp
  · exact Or.inr ⟨hu, fun x hx => ((admits_inter ha hb).1 (admits_of_mem hx)).2⟩

theorem within_inter (ha : Canonical a) (hb : Canonical b) (hca : Within c a)
    (hcb : Within c b) : Within c (a.inter b) := by
  by_cases huc : c = .univ
  · subst huc
    rw [univ_within.1 hca, univ_within.1 hcb]
    simp
  · exact Or.inr ⟨huc, fun x hx =>
      (admits_inter ha hb).2 ⟨(admits_of_mem hx).mono hca, (admits_of_mem hx).mono hcb⟩⟩

/-! ## Tests for change -/

theorem unionChanges_eq_false (ha : Canonical a) (hb : Canonical b) :
    a.unionChanges b = false ↔ Sub b a := by
  unfold unionChanges
  split_ifs with h h'
  · rcases h with rfl | rfl <;> simp
  · have hne : ¬ Sub b a := by
      rcases h' with rfl | rfl
      · simpa using fun ha : a = .univ => h (Or.inl ha)
      · exact fun hs => h (Or.inr (sub_empty hb hs))
    simpa using hne
  · obtain ⟨hua, -⟩ := not_or.1 h
    obtain ⟨hub, -⟩ := not_or.1 h'
    simp [Sub, hua, hub]

/-- A union that the test finds to change nothing is the set itself. -/
theorem union_eq_left (ha : Canonical a) (hb : Canonical b) (h : a.unionChanges b = false) :
    a.union b = a :=
  Sub.antisymm (canonical_union ha hb) ha
    (union_sub ha hb (Sub.refl a) ((unionChanges_eq_false ha hb).1 h)) (sub_union_left ha hb)

/-- Where a union changes nothing, the test finds that. -/
theorem unionChanges_of_union_eq (ha : Canonical a) (hb : Canonical b) (h : a.union b = a) :
    a.unionChanges b = false := by
  have hsub := sub_union_right ha hb
  rw [h] at hsub
  exact (unionChanges_eq_false ha hb).2 hsub

theorem interChanges_eq_false : a.interChanges b = false ↔ a.inter b = a := by
  unfold interChanges
  split_ifs with h h'
  · rcases h with rfl | rfl
    · simp [inter]
    · simp
  · obtain ⟨hae, hub⟩ := not_or.1 h
    rcases h' with rfl | rfl
    · simpa [inter] using fun h : TypeSet.empty = a => hae h.symm
    · simpa using hub
  · simp

/-- Where an intersection changes nothing, the set lies within the operand. -/
theorem within_of_inter_eq (ha : Canonical a) (hb : Canonical b) (h : a.inter b = a) :
    Within a b := by
  have hw := inter_within_right ha hb
  rwa [h] at hw

end TypeSet

end TypeFlow
