import Mathlib.Data.Set.Lattice
import TypeFlow.Proofs.TypeSet.Within
/-!
# What type sets denote

A set denotes leaves: everything denotes all of them, nothing none, a leaf those that refine it,
and a union what its operands do (`meaning`). On all sets that pass the check, canonical or not,
a union denotes the union of what its operands denote and an intersection the intersection, and both
pass the check again (`meaning_operations`). For intersections it matters that the leaves above
one leaf are a chain: of two leaves above it the more special one is their meet.
-/

namespace TypeFlow

namespace TypeSet

variable {a b x y : TypeSet}

/-- The leaves that refine a leaf. -/
def refinements (y : TypeSet) : Set TypeSet := {x | Refines x y}

/-- The leaves that a set stands for. -/
def meaning : TypeSet → Set TypeSet
  | .univ => {x | x.isLeaf}
  | .empty => ∅
  | .anyOf ops => ⋃ y ∈ ops, refinements y
  | leaf => refinements leaf

theorem Refines.isLeaf (h : Refines x y) (hy : y.isLeaf) : x.isLeaf := by
  cases h with
  | refl => exact hy
  | bare b x => rfl
  | arg b h => rfl

/-! ## Sets that pass the check -/

theorem proper_of_checkOperands : ∀ {xs : List TypeSet}, checkOperands xs = .ok () →
    ∀ x ∈ xs, Proper x
  | [], _ => by simp
  | x :: xs, h => by
    unfold checkOperands at h
    split at h
    · cases h
    · next hleaf =>
      have hleaf : x.isLeaf := by simpa using hleaf
      split at h
      · cases h
      · next hx =>
        exact List.forall_mem_cons.2 ⟨(checkLeaf_eq_ok hleaf).1 hx, proper_of_checkOperands h⟩

/-- What passes the check is everything, or has proper leaves only. -/
theorem check_eq_ok : a.check = .ok () ↔ a = .univ ∨ ∀ x ∈ a.leaves, Proper x := by
  cases a with
  | univ => simp [check, checkLeaf]
  | empty => simp [check, checkLeaf, leaves]
  | anyOf ops =>
    simp only [check, leaves, reduceCtorEq, false_or]
    exact ⟨proper_of_checkOperands, checkOperands_eq_ok⟩
  | base b => simp [check, checkLeaf, leaves, Proper]
  | cls decl => simp [check, checkLeaf, leaves, Proper]
  | arged b arg =>
    simp only [check, leaves, List.mem_singleton, forall_eq, reduceCtorEq, false_or]
    exact checkLeaf_eq_ok rfl

/-- Canonical sets are those that pass the check and whose unions have two operands at least, in
strictly ascending order. -/
theorem canonical_iff : a.Canonical ↔
    a.check = .ok () ∧ ∀ ops, a = .anyOf ops → 2 ≤ ops.length ∧ Ascending ops := by
  constructor
  · refine fun ha => ⟨ha.check, ?_⟩
    rintro ops rfl
    obtain ⟨xs, hxs, hascending, hproper⟩ := ha.resolve_left nofun
    match xs, hxs, hascending, hproper with
    | [], hxs, _, _ => cases hxs
    | [x], hxs, _, hproper =>
      have hx : Proper (.anyOf ops) := hxs ▸ hproper x (List.mem_singleton_self x)
      exact absurd hx id
    | x :: y :: rest, hxs, hascending, _ =>
      obtain rfl := TypeSet.anyOf.inj hxs
      exact ⟨by simp, hascending⟩
  · rintro ⟨hcheck, hunion⟩
    cases a with
    | univ => exact canonical_univ
    | empty => exact canonical_empty
    | anyOf ops =>
      obtain ⟨hlength, hascending⟩ := hunion ops rfl
      refine Or.inr ⟨ops, ?_, hascending, proper_of_checkOperands hcheck⟩
      match ops, hlength with
      | _ :: _ :: _, _ => rfl
    | base b => exact Proper.canonical trivial
    | cls c => exact Proper.canonical trivial
    | arged b arg => exact ((checkLeaf_eq_ok rfl).1 hcheck).canonical

theorem proper_leaves (ha : a.check = .ok ()) (hua : a ≠ .univ) : ∀ x ∈ a.leaves, Proper x :=
  (check_eq_ok.1 ha).resolve_left hua

theorem proper_append (ha : a.check = .ok ()) (hb : b.check = .ok ()) (hua : a ≠ .univ)
    (hub : b ≠ .univ) : ∀ x ∈ a.leaves ++ b.leaves, Proper x := fun x hx =>
  (List.mem_append.1 hx).elim (proper_leaves ha hua x) (proper_leaves hb hub x)

theorem proper_meets (ha : a.check = .ok ()) (hb : b.check = .ok ()) (hua : a ≠ .univ)
    (hub : b ≠ .univ) : ∀ x ∈ meets a.leaves b.leaves, Proper x := fun x hx =>
  (mem_meets_iff.1 hx).1.elim (proper_leaves ha hua x) (proper_leaves hb hub x)

/-- Unions pass the check. -/
theorem check_union (ha : a.check = .ok ()) (hb : b.check = .ok ()) :
    (a.union b).check = .ok () := by
  by_cases hua : a = .univ
  · rw [hua, univ_union]
    rfl
  by_cases hub : b = .univ
  · rw [hub, union_univ]
    rfl
  rcases union_cases hua hub with ⟨h, -⟩ | ⟨h, -⟩ | h | h
  · rwa [h]
  · rwa [h]
  · exact h ▸ (canonical_ofLeaves (proper_append ha hb hua hub)).check
  · exact h ▸ (canonical_ofLeaves (proper_append hb ha hub hua)).check

/-- An intersection of sets other than everything is the set that both are, or collects the meets
of their leaves. -/
theorem inter_cases (hua : a ≠ .univ) (hub : b ≠ .univ) :
    (a = b ∧ a.inter b = a) ∨ a.inter b = ofLeaves (meets a.leaves b.leaves) := by
  unfold inter
  split_ifs with he hab
  · -- there are no meets where there are no leaves
    refine Or.inr ?_
    rcases he with rfl | rfl
    · rfl
    · rw [show meets a.leaves empty.leaves = [] by simp [meets, leaves]]
      rfl
  · exact Or.inl ⟨hab, rfl⟩
  · exact Or.inr rfl

/-- Intersections pass the check. -/
theorem check_inter (ha : a.check = .ok ()) (hb : b.check = .ok ()) :
    (a.inter b).check = .ok () := by
  by_cases hua : a = .univ
  · rwa [hua, univ_inter]
  by_cases hub : b = .univ
  · rwa [hub, inter_univ]
  rcases inter_cases hua hub with ⟨-, h⟩ | h
  · rwa [h]
  · exact h ▸ (canonical_ofLeaves (proper_meets ha hb hua hub)).check

/-! ## Denotations -/

theorem mem_meaning (hua : a ≠ .univ) : x ∈ meaning a ↔ ∃ y ∈ a.leaves, Refines x y := by
  cases a with
  | univ => exact absurd rfl hua
  | anyOf ops => simp [meaning, refinements, leaves]
  | _ => simp [meaning, refinements, leaves]

/-- Only leaves are denoted. -/
theorem isLeaf_of_mem_meaning (ha : a.check = .ok ()) (hx : x ∈ meaning a) : x.isLeaf := by
  by_cases hua : a = .univ
  · rw [hua] at hx
    exact hx
  · obtain ⟨y, hy, hxy⟩ := (mem_meaning hua).1 hx
    exact hxy.isLeaf (proper_leaves ha hua y hy).isLeaf

theorem mem_meaning_ofLeaves {xs : List TypeSet} (h : ∀ x ∈ xs, Proper x) :
    x ∈ meaning (ofLeaves xs) ↔ ∃ y ∈ xs, Refines x y := by
  rw [mem_meaning (ofLeaves_ne_univ h)]
  exact exists_congr fun y => and_congr_left' (mem_leaves_ofLeaves h)

theorem meaning_union (ha : a.check = .ok ()) (hb : b.check = .ok ()) :
    meaning (a.union b) = meaning a ∪ meaning b := by
  by_cases hua : a = .univ
  · subst hua
    rw [univ_union]
    exact (Set.union_eq_self_of_subset_right fun x hx => isLeaf_of_mem_meaning hb hx).symm
  by_cases hub : b = .univ
  · subst hub
    rw [union_univ]
    exact (Set.union_eq_self_of_subset_left fun x hx => isLeaf_of_mem_meaning ha hx).symm
  have hboth : ∀ {c d : TypeSet} {x : TypeSet}, (∃ y ∈ c.leaves ++ d.leaves, Refines x y) ↔
      (∃ y ∈ c.leaves, Refines x y) ∨ ∃ y ∈ d.leaves, Refines x y := by
    simp only [List.mem_append, or_and_right, exists_or, implies_true]
  ext x
  rw [Set.mem_union, mem_meaning hua, mem_meaning hub]
  rcases union_cases hua hub with ⟨h, hsub⟩ | ⟨h, hsub⟩ | h | h
  · rw [h, mem_meaning hua]
    exact (or_iff_left_of_imp fun ⟨y, hy, hxy⟩ => ⟨y, hsub y hy, hxy⟩).symm
  · rw [h, mem_meaning hub]
    exact (or_iff_right_of_imp fun ⟨y, hy, hxy⟩ => ⟨y, hsub y hy, hxy⟩).symm
  · rw [h, mem_meaning_ofLeaves (proper_append ha hb hua hub), hboth]
  · rw [h, mem_meaning_ofLeaves (proper_append hb ha hub hua), hboth, or_comm]

/-- A leaf lies below a meet exactly if it lies below a leaf of either list. -/
theorem exists_meets_iff {xs ys : List TypeSet} : (∃ z ∈ meets xs ys, Refines x z) ↔
    (∃ y ∈ xs, Refines x y) ∧ ∃ y ∈ ys, Refines x y := by
  constructor
  · rintro ⟨z, hz, hxz⟩
    obtain ⟨-, ⟨y, hy, hzy⟩, y', hy', hzy'⟩ := mem_meets_iff.1 hz
    exact ⟨⟨y, hy, hxz.trans hzy⟩, y', hy', hxz.trans hzy'⟩
  · rintro ⟨⟨y, hy, hxy⟩, z, hz, hxz⟩
    rcases hxy.chain hxz with hyz | hzy
    · exact ⟨y, mem_meets.2 (Or.inl ⟨hy, z, hz, hyz⟩), hxy⟩
    · exact ⟨z, mem_meets.2 (Or.inr ⟨hz, y, hy, hzy⟩), hxz⟩

theorem meaning_inter (ha : a.check = .ok ()) (hb : b.check = .ok ()) :
    meaning (a.inter b) = meaning a ∩ meaning b := by
  by_cases hua : a = .univ
  · subst hua
    rw [univ_inter]
    exact (Set.inter_eq_self_of_subset_right fun x hx => isLeaf_of_mem_meaning hb hx).symm
  by_cases hub : b = .univ
  · subst hub
    rw [inter_univ]
    exact (Set.inter_eq_self_of_subset_left fun x hx => isLeaf_of_mem_meaning ha hx).symm
  rcases inter_cases hua hub with ⟨rfl, h⟩ | h
  · rw [h, Set.inter_self]
  · ext x
    rw [h, mem_meaning_ofLeaves (proper_meets ha hb hua hub), exists_meets_iff, Set.mem_inter_iff,
      mem_meaning hua, mem_meaning hub]

/-- Unions and intersections of sets that pass the check denote the unions and intersections of
what these denote, and pass the check. -/
theorem meaning_operations (ha : a.check = .ok ()) (hb : b.check = .ok ()) :
    meaning (a.union b) = meaning a ∪ meaning b ∧
      meaning (a.inter b) = meaning a ∩ meaning b ∧
        (a.union b).check = .ok () ∧ (a.inter b).check = .ok () :=
  ⟨meaning_union ha hb, meaning_inter ha hb, check_union ha hb, check_inter ha hb⟩

/-- A union that is not canonical, and a container that one of its operands is a bare form of. -/
theorem meaning_operations_nested :
    let a : TypeSet := .anyOf [.arged .list (.base .list), .base .int, .base .int]
    let b : TypeSet := .arged .list (.arged .list (.base .int))
    a.check = .ok () ∧ b.check = .ok () ∧ a.inter b = b ∧
      meaning (a.union b) = meaning a ∪ meaning b ∧
        meaning (a.inter b) = meaning a ∩ meaning b ∧
          (a.union b).check = .ok () ∧ (a.inter b).check = .ok () := by
  intro a b
  have ha : a.check = .ok () := by decide
  have hb : b.check = .ok () := by decide
  exact ⟨ha, hb, by decide, meaning_operations ha hb⟩

end TypeSet

end TypeFlow
