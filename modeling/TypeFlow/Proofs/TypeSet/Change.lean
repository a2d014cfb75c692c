import TypeFlow.Proofs.TypeSet.Laws
import TypeFlow.Proofs.TypeSet.Meaning
/-!
# What changes a set

A union leaves a canonical set as it is exactly if the set holds all leaves of the other
(`union_eq_left_iff`). An intersection does so exactly if the set lies within the other and the
other has no finer leaves (`inter_eq_left_iff`): leaves are atoms to the one operation, and are
refined by the other.

So the two do not absorb each other as the operations of a lattice do. Where `b` has a leaf strictly
below one of `a`, both `a ∪ (a ∩ b)` and `a ∩ (a ∪ b)` take it up. They are one set all the same,
and it denotes what `a` denotes (`absorption`).

The tests for change are exact, and a change is final: no further union, or intersection, undoes it
or lets the test find it again (`changes_final`).
-/

namespace TypeFlow

namespace TypeSet

variable {a b : TypeSet}

/-! ## Sets that stay as they are -/

theorem union_eq_left_iff (ha : Canonical a) (hb : Canonical b) : a.union b = a ↔ Sub b a := by
  rw [← unionChanges_eq_false ha hb]
  exact ⟨unionChanges_of_union_eq ha hb, union_eq_left ha hb⟩

/-- Every leaf of the second set below a leaf of the first is a leaf of the first. -/
def NoFiner (a b : TypeSet) : Prop := ∀ x ∈ b.leaves, ∀ y ∈ a.leaves, Refines x y → x ∈ a.leaves

instance : Decidable (NoFiner a b) :=
  inferInstanceAs (Decidable (∀ x ∈ b.leaves, ∀ y ∈ a.leaves, Refines x y → x ∈ a.leaves))

theorem univ_noFiner (b : TypeSet) : NoFiner .univ b := by
  intro x _ y hy hxy
  obtain rfl : y = .univ := List.mem_singleton.1 hy
  cases hxy
  exact hy

theorem noFiner_univ (a : TypeSet) : NoFiner a .univ := by
  intro x hx y hy hxy
  obtain rfl : x = .univ := List.mem_singleton.1 hx
  cases hxy
  exact hy

/-- An intersection holds the leaves of either operand that both admit: the own ones all stay if the
set lies within the other, and none comes in addition if the other has no finer ones. -/
theorem inter_eq_left_iff (ha : Canonical a) (hb : Canonical b) :
    a.inter b = a ↔ Within a b ∧ NoFiner a b := by
  by_cases hua : a = .univ
  · subst hua
    simp [univ_noFiner]
  by_cases hub : b = .univ
  · subst hub
    simp [noFiner_univ]
  have hab := hasLeaves_inter ha hb hua hub
  constructor
  · intro h
    refine ⟨within_of_inter_eq ha hb h, fun x hx y hy hxy => ?_⟩
    have hmem := (hab.mem_iff x).2 ⟨Or.inr hx, Or.inr ⟨y, hy, hxy⟩, admits_of_mem hx⟩
    rwa [h] at hmem
  · rintro ⟨hwithin, hfiner⟩
    refine hab.canonical.ext ha hab.ne_univ hua fun x => ?_
    rw [hab.mem_iff]
    constructor
    · rintro ⟨hx | hx, hxa, -⟩
      · exact hx
      · obtain ⟨y, hy, hxy⟩ := hxa.resolve_left hua
        exact hfiner x hx y hy hxy
    · intro hx
      exact ⟨Or.inl hx, admits_of_mem hx, (admits_of_mem hx).mono hwithin⟩

/-! ## Absorption -/

/-- A set that lies within another denotes no more. -/
theorem meaning_mono (ha : Canonical a) (h : Within a b) : meaning a ⊆ meaning b := by
  intro x hx
  by_cases hub : b = .univ
  · subst hub
    exact isLeaf_of_mem_meaning ha.check hx
  · have hua := (h.resolve_left hub).1
    have hadmits : Admits b x := Admits.mono h (Or.inr ((mem_meaning hua).1 hx))
    exact (mem_meaning hub).2 (hadmits.resolve_left hub)

theorem noFiner_union (ha : Canonical a) (hb : Canonical b) :
    NoFiner a (a.union b) ↔ NoFiner a b := by
  by_cases hua : a = .univ
  · simp [hua, univ_noFiner]
  by_cases hub : b = .univ
  · simp [hub]
  have hab := hasLeaves_union ha hb hua hub
  constructor
  · intro h x hx
    exact h x ((hab.mem_iff x).2 (Or.inr hx))
  · intro h x hx y hy hxy
    rcases (hab.mem_iff x).1 hx with hxa | hxb
    · exact hxa
    · exact h x hxb y hy hxy

/-- The two sides of absorption agree. -/
theorem inter_union_self (ha : Canonical a) (hb : Canonical b) :
    a.inter (a.union b) = a.union (a.inter b) := by
  by_cases hua : a = .univ
  · simp [hua]
  by_cases hub : b = .univ
  · simp [hub]
  rw [inter_union ha ha hb hua hua hub, inter_self]

/-- Absorption holds for what sets denote, and for the sets themselves exactly if the second has no
finer leaves. In the same way an intersection with a set that the first lies within keeps what that
denotes, and keeps it as it is exactly if the other has no finer leaves. -/
theorem absorption (ha : Canonical a) (hb : Canonical b) :
    a.inter (a.union b) = a.union (a.inter b) ∧
    meaning (a.union (a.inter b)) = meaning a ∧
    (a.union (a.inter b) = a ↔ NoFiner a b) ∧
    (Within a b → meaning (a.inter b) = meaning a ∧ (a.inter b = a ↔ NoFiner a b)) := by
  have hab := canonical_inter ha hb
  refine ⟨inter_union_self ha hb, ?_, ?_, fun h => ⟨?_, ?_⟩⟩
  · rw [meaning_union ha.check hab.check, meaning_inter ha.check hb.check]
    exact sup_inf_self
  · have hwithin : Within a (a.union b) := (sub_union_left ha hb).within
    rw [← inter_union_self ha hb, inter_eq_left_iff ha (canonical_union ha hb),
      noFiner_union ha hb]
    exact and_iff_right hwithin
  · rw [meaning_inter ha.check hb.check]
    exact Set.inter_eq_self_of_subset_left (meaning_mono ha h)
  · rw [inter_eq_left_iff ha hb]
    exact and_iff_right h

/-- Lists of numbers and strings lie within lists and strings, which have no finer leaves. -/
theorem absorption_wider :
    let a : TypeSet := .anyOf [.base .string, .arged .list (.base .int)]
    let b : TypeSet := .anyOf [.base .string, .base .list]
    Canonical a ∧ Canonical b ∧ Within a b ∧ NoFiner a b ∧
      a.union (a.inter b) = a ∧ a.inter (a.union b) = a ∧ a.inter b = a := by
  intro a b
  have ha : Canonical a := by decide
  have hb : Canonical b := by decide
  have hwithin : Within a b := by decide
  obtain ⟨hsides, -, hunion, hinter⟩ := absorption ha hb
  have hsame : a.union (a.inter b) = a := by decide
  have hfiner : NoFiner a b := hunion.1 hsame
  exact ⟨ha, hb, hwithin, hfiner, hsame, hsides.trans hsame, (hinter hwithin).2.2 hfiner⟩

/-- A bare container and an instance of it are not absorbed, and neither is an intersection of the
bare container with a set that it is a leaf of. -/
theorem absorption_fails :
    Canonical (.base .list) ∧ Canonical (.arged .list (.base .int)) ∧
    Canonical (.anyOf [.base .list, .arged .list (.base .int)]) ∧
    (base .list).union ((base .list).inter (.arged .list (.base .int))) ≠ .base .list ∧
    (base .list).inter ((base .list).union (.arged .list (.base .int))) ≠ .base .list ∧
    Sub (.base .list) (.anyOf [.base .list, .arged .list (.base .int)]) ∧
    (base .list).inter (.anyOf [.base .list, .arged .list (.base .int)]) ≠ .base .list := by
  decide

/-! ## Tests for change -/

theorem unionChanges_iff (ha : Canonical a) (hb : Canonical b) :
    a.unionChanges b = true ↔ a.union b ≠ a := by
  rw [← Bool.not_eq_false, unionChanges_eq_false ha hb, Ne, union_eq_left_iff ha hb]

theorem interChanges_iff : a.interChanges b = true ↔ a.inter b ≠ a := by
  rw [← Bool.not_eq_false, interChanges_eq_false]

/-- Each test tells whether the operation would give another set. After the operation, and any more
of its kind, the test finds nothing to change, and a set that was changed does not come back. -/
theorem changes_final {xs : List TypeSet} (ha : Canonical a) (hb : Canonical b)
    (hxs : ∀ x ∈ xs, Canonical x) :
    ((a.unionChanges b = true ↔ a.union b ≠ a) ∧
      (xs.foldl union (a.union b)).unionChanges b = false ∧
      (a.union b ≠ a → xs.foldl union (a.union b) ≠ a)) ∧
    ((a.interChanges b = true ↔ a.inter b ≠ a) ∧
      (xs.foldl inter (a.inter b)).interChanges b = false ∧
      (a.inter b ≠ a → xs.foldl inter (a.inter b) ≠ a)) := by
  refine ⟨⟨unionChanges_iff ha hb, ?_, pooling_union.foldl_op_ne ha hb hxs⟩,
    ⟨interChanges_iff, ?_, pooling_inter.foldl_op_ne ha hb hxs⟩⟩
  · have hgrown := pooling_union.canonical_foldl (canonical_union ha hb) hxs
    exact unionChanges_of_union_eq hgrown hb (pooling_union.foldl_op_absorbs ha hb hxs)
  · exact interChanges_eq_false.2 (pooling_inter.foldl_op_absorbs ha hb hxs)

/-- An intersection that adds a leaf to a bare container, and another one after it that adds one
more. -/
theorem changes_final_growing :
    let a : TypeSet := .base .list
    let b : TypeSet := .anyOf [.base .list, .arged .list (.base .int)]
    let c : TypeSet := .anyOf [.base .list, .arged .list (.base .string)]
    (Canonical a ∧ Canonical b ∧ ∀ x ∈ [c], Canonical x) ∧
    a.unionChanges b = true ∧ ([c].foldl union (a.union b)).unionChanges b = false ∧
    a.interChanges b = true ∧ ([c].foldl inter (a.inter b)).interChanges b = false ∧
    [c].foldl inter (a.inter b) ≠ a ∧
    [c].foldl inter (a.inter b) =
      .anyOf [.base .list, .arged .list (.base .int), .arged .list (.base .string)] := by
  intro a b c
  have ha : Canonical a := by decide
  have hb : Canonical b := by decide
  have hxs : ∀ x ∈ [c], Canonical x := by decide
  obtain ⟨⟨hunion, hgrown, -⟩, hinter, hshrunk, hfinal⟩ := changes_final ha hb hxs
  have hchanged : a.inter b ≠ a := by decide
  exact ⟨⟨ha, hb, hxs⟩, hunion.2 (by decide), hgrown, hinter.2 hchanged, hshrunk, hfinal hchanged,
    by decide⟩

end TypeSet

end TypeFlow
