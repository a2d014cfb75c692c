import Mathlib.Data.Finset.Card
import Mathlib.Data.Finset.Prod
import Mathlib.Data.Finset.Union
import TypeFlow.Proofs.TypeSet.Within
/-!
# Finitely many leaves

Over finitely many classes there are finitely many leaves up to a depth of nesting
(`leavesUpTo`). A set over a finite universe has bounded room: a union that changes it leaves less
room to grow (`growth_union_lt`), and an intersection that changes it less room to shrink
(`shrinkage_inter_lt`). The latter counts what a set admits first and its leaves second, since an
intersection may add leaves below those it keeps.
-/

namespace TypeFlow

namespace TypeSet

/-! ## Leaves up to a depth -/

/-- The leaves over some classes whose containers are nested at most so deep. -/
def leavesUpTo (classes : Finset NodeId) : Nat → Finset TypeSet
  | 0 => ∅
  | depth + 1 =>
    BaseType.all.toFinset.image .base ∪ classes.image .cls ∪
      (BaseType.all.toFinset ×ˢ leavesUpTo classes depth).image fun p => .arged p.1 p.2

section Leaves

variable {classes : Finset NodeId} {k l : Nat} {x y : TypeSet}

theorem base_mem_leavesUpTo (b : BaseType) : .base b ∈ leavesUpTo classes (k + 1) := by
  simp [leavesUpTo, BaseType.mem_all]

theorem cls_mem_leavesUpTo {c : NodeId} : .cls c ∈ leavesUpTo classes (k + 1) ↔ c ∈ classes := by
  simp [leavesUpTo]

theorem arged_mem_leavesUpTo {b : BaseType} :
    .arged b x ∈ leavesUpTo classes (k + 1) ↔ x ∈ leavesUpTo classes k := by
  simp [leavesUpTo, BaseType.mem_all]

theorem leavesUpTo_succ : ∀ {k : Nat} {x : TypeSet}, x ∈ leavesUpTo classes k →
    x ∈ leavesUpTo classes (k + 1)
  | 0, x, h => by simp [leavesUpTo] at h
  | k + 1, x, h => by
    cases x with
    | base b => exact base_mem_leavesUpTo b
    | cls c => exact cls_mem_leavesUpTo.2 (cls_mem_leavesUpTo.1 h)
    | arged b x => exact arged_mem_leavesUpTo.2 (leavesUpTo_succ (arged_mem_leavesUpTo.1 h))
    | _ => simp [leavesUpTo] at h

theorem leavesUpTo_mono (hkl : k ≤ l) (h : x ∈ leavesUpTo classes k) :
    x ∈ leavesUpTo classes l := by
  induction hkl with
  | refl => exact h
  | step _ ih => exact leavesUpTo_succ ih

/-- What lies above a leaf is nested no deeper. -/
theorem mem_leavesUpTo_of_refines (hxy : Refines x y) (h : x ∈ leavesUpTo classes k) :
    y ∈ leavesUpTo classes k := by
  induction hxy generalizing k with
  | refl => exact h
  | bare b x =>
    cases k with
    | zero => simp [leavesUpTo] at h
    | succ k => exact base_mem_leavesUpTo b
  | arg b _ ih =>
    cases k with
    | zero => simp [leavesUpTo] at h
    | succ k => exact arged_mem_leavesUpTo.2 (ih (arged_mem_leavesUpTo.1 h))

end Leaves

/-! ## Room to grow and to shrink -/

section Room

open Classical in
/-- The leaves of a universe that a set admits. -/
noncomputable def admitted (U : Finset TypeSet) (a : TypeSet) : Finset TypeSet :=
  U.filter fun x => Admits a x

/-- The leaves of a universe that are not leaves of a set. -/
def missing (U : Finset TypeSet) (a : TypeSet) : Finset TypeSet := U.filter fun x => x ∉ a.leaves

/-- How many leaves of a universe a set may still take up, and one more for everything. -/
def growth (U : Finset TypeSet) (a : TypeSet) : Nat :=
  if a = .univ then 0 else (missing U a).card + 1

/-- How far a set over a universe may still shrink: by what it admits, and for as much admitted by
the leaves that it has not. -/
noncomputable def shrinkage (U : Finset TypeSet) (a : TypeSet) : Nat :=
  if a = .univ then (U.card + 1) * (U.card + 1)
  else (admitted U a).card * (U.card + 1) + (missing U a).card

variable {U : Finset TypeSet} {a b x : TypeSet}

@[simp] theorem mem_admitted : x ∈ admitted U a ↔ x ∈ U ∧ Admits a x := by simp [admitted]

@[simp] theorem mem_missing : x ∈ missing U a ↔ x ∈ U ∧ x ∉ a.leaves := by simp [missing]

theorem card_admitted_le (U : Finset TypeSet) (a : TypeSet) : (admitted U a).card ≤ U.card :=
  Finset.card_le_card fun _ hx => (mem_admitted.1 hx).1

theorem card_missing_le (U : Finset TypeSet) (a : TypeSet) : (missing U a).card ≤ U.card :=
  Finset.card_le_card fun _ hx => (mem_missing.1 hx).1

/-- A set that has all leaves of another and one more misses fewer. -/
theorem card_missing_lt (h : ∀ y ∈ a.leaves, y ∈ b.leaves) (hxU : x ∈ U) (hxa : x ∉ a.leaves)
    (hxb : x ∈ b.leaves) : (missing U b).card < (missing U a).card := by
  have hsub : missing U b ⊆ missing U a := fun y hy => by
    obtain ⟨hyU, hy⟩ := mem_missing.1 hy
    exact mem_missing.2 ⟨hyU, fun hya => hy (h y hya)⟩
  exact Finset.card_lt_card ((Finset.ssubset_iff_of_subset hsub).2
    ⟨x, mem_missing.2 ⟨hxU, hxa⟩, fun hmem => (mem_missing.1 hmem).2 hxb⟩)

theorem growth_union_lt (ha : Canonical a) (hb : Over (· ∈ U) b) (h : a.unionChanges b) :
    growth U (a.union b) < growth U a := by
  have hnot : ¬ Sub b a := fun hs => by simp [(unionChanges_eq_false ha hb.1).2 hs] at h
  have hua : a ≠ .univ := by
    rintro rfl
    exact hnot (sub_univ b)
  by_cases hub : b = .univ
  · simp [hub, growth, hua]
  have hab := hasLeaves_union ha hb.1 hua hub
  obtain ⟨x, hx, hxa⟩ : ∃ x ∈ b.leaves, x ∉ a.leaves := by
    by_contra hall
    refine hnot (Or.inr ⟨hub, fun x hx => ?_⟩)
    by_contra hxa
    exact hall ⟨x, hx, hxa⟩
  simp only [growth, hab.ne_univ, hua, if_false, Nat.add_lt_add_iff_right]
  exact card_missing_lt (fun y hy => (hab.mem_iff y).2 (Or.inl hy)) (hb.2 hub x hx) hxa
    ((hab.mem_iff x).2 (Or.inr hx))

theorem two_level_lt {p q r k : Nat} (hpq : p < q) (hr : r ≤ k) :
    p * (k + 1) + r < q * (k + 1) := by
  have hle : (p + 1) * (k + 1) ≤ q * (k + 1) := Nat.mul_le_mul_right _ hpq
  rw [Nat.succ_mul] at hle
  omega

theorem shrinkage_inter_lt (ha : Over (· ∈ U) a) (hb : Over (· ∈ U) b) (h : a.interChanges b) :
    shrinkage U (a.inter b) < shrinkage U a := by
  have hne : a.inter b ≠ a := fun heq => by simp [interChanges_eq_false.2 heq] at h
  by_cases hua : a = .univ
  · subst hua
    have hub : b ≠ .univ := fun hub => hne (by rw [hub, univ_inter])
    simp only [univ_inter, shrinkage, hub, if_true, if_false]
    exact two_level_lt (Nat.lt_succ_of_le (card_admitted_le U b)) (card_missing_le U b)
  have huab : a.inter b ≠ .univ := fun hu => hua ((inter_eq_univ ha.1 hb.1).1 hu).1
  have hsub : admitted U (a.inter b) ⊆ admitted U a := fun x hx => by
    obtain ⟨hxU, hx⟩ := mem_admitted.1 hx
    exact mem_admitted.2 ⟨hxU, ((admits_inter ha.1 hb.1).1 hx).1⟩
  simp only [shrinkage, hua, huab, if_false]
  by_cases heq : admitted U (a.inter b) = admitted U a
  · -- then all leaves of `a` stay, and one is new
    have hstay : ∀ x ∈ a.leaves, x ∈ (a.inter b).leaves := fun x hx => by
      have hmem : x ∈ admitted U (a.inter b) := by
        rw [heq]
        exact mem_admitted.2 ⟨ha.2 hua x hx, admits_of_mem hx⟩
      have hxb := ((admits_inter ha.1 hb.1).1 (mem_admitted.1 hmem).2).2
      by_cases hub : b = .univ
      · rwa [hub, inter_univ]
      · exact ((hasLeaves_inter ha.1 hb.1 hua hub).mem_iff x).2 ⟨Or.inl hx, admits_of_mem hx, hxb⟩
    obtain ⟨x, hx, hxa⟩ : ∃ x ∈ (a.inter b).leaves, x ∉ a.leaves := by
      by_contra hall
      refine hne ((canonical_inter ha.1 hb.1).ext ha.1 huab hua fun x => ⟨fun hx => ?_, hstay x⟩)
      by_contra hxa
      exact hall ⟨x, hx, hxa⟩
    rw [heq]
    exact Nat.add_lt_add_left
      (card_missing_lt hstay ((over_inter ha hb).2 huab x hx) hxa hx) _
  · have hlt := Finset.card_lt_card (Finset.ssubset_iff_subset_ne.2 ⟨hsub, heq⟩)
    have := two_level_lt hlt (card_missing_le U (a.inter b))
    omega

theorem growth_union_le (ha : Canonical a) (hb : Over (· ∈ U) b) :
    growth U (a.union b) ≤ growth U a := by
  cases h : a.unionChanges b with
  | true => exact Nat.le_of_lt (growth_union_lt ha hb h)
  | false => rw [union_eq_left ha hb.1 h]

theorem shrinkage_inter_le (ha : Over (· ∈ U) a) (hb : Over (· ∈ U) b) :
    shrinkage U (a.inter b) ≤ shrinkage U a := by
  cases h : a.interChanges b with
  | true => exact Nat.le_of_lt (shrinkage_inter_lt ha hb h)
  | false => rw [interChanges_eq_false.1 h]

end Room

end TypeSet

end TypeFlow
