import Mathlib.Data.List.Nodup
import TypeFlow.Proofs.TypeSet.Refinement
import TypeFlow.TypeSet.Check
/-!
# Canonical type sets

A canonical set is everything, or a list of proper leaves in strictly ascending order, collected.
The order of trees is a strict linear order (`order_swap`, `order_trans`), so that a canonical set
is determined by its leaves (`Canonical.ext`). What `ofLeaves` makes of proper leaves is canonical,
and canonical sets pass the check.
-/

namespace TypeFlow

namespace TypeSet

/-! ## The order of trees -/

theorem compare_base_swap (a b : BaseType) : (compare a b).swap = compare b a :=
  Nat.compare_swap a.position b.position

theorem compare_cls_swap (a b : NodeId) : (compare a b).swap = compare b a :=
  Nat.compare_swap a.index b.index

mutual

theorem order_swap : ∀ a b : TypeSet, (order a b).swap = order b a
  | .univ, b | .empty, b => by cases b <;> rfl
  | .base a, b => by
    cases b with
    | base b => exact compare_base_swap a b
    | _ => rfl
  | .arged a x, b => by
    cases b with
    | arged b y => rw [order, order, Ordering.swap_then, order_swap x y, compare_base_swap]
    | _ => rfl
  | .cls a, b => by
    cases b with
    | cls b => exact compare_cls_swap a b
    | _ => rfl
  | .anyOf xs, b => by
    cases b with
    | anyOf ys => rw [order, order, orderList_swap xs ys]
    | _ => rfl

theorem orderList_swap : ∀ xs ys : List TypeSet, (orderList xs ys).swap = orderList ys xs
  | [], [] | [], _ :: _ | _ :: _, [] => rfl
  | x :: xs, y :: ys => by
    rw [orderList, orderList, Ordering.swap_then, order_swap x y, orderList_swap xs ys]

end

theorem order_gt {a b : TypeSet} (h : order a b = .gt) : order b a = .lt := by
  rw [← order_swap, h]
  rfl

/-- Trees of different outermost forms are ordered by these. -/
theorem order_of_shape_ne {a b : TypeSet} (h : a.shape ≠ b.shape) :
    order a b = compare a.shape b.shape := by
  cases a <;> cases b <;> first | rfl | exact absurd rfl h

theorem shape_le_of_order {a b : TypeSet} (h : order a b = .lt) : a.shape ≤ b.shape := by
  by_cases hs : a.shape = b.shape
  · exact Nat.le_of_eq hs
  · rw [order_of_shape_ne hs, Nat.compare_eq_lt] at h
    exact Nat.le_of_lt h

/-- A lexicographic comparison is transitive if its parts are. -/
theorem then_trans {p q r p' q' r' : Ordering} (hlt : p = .lt → q = .lt → r = .lt)
    (hleft : p = .eq → q = r) (hright : q = .eq → p = r)
    (hrest : p' = .lt → q' = .lt → r' = .lt) (h : p.then p' = .lt) (h' : q.then q' = .lt) :
    r.then r' = .lt := by
  rw [Ordering.then_eq_lt] at h h' ⊢
  rcases h with h | ⟨h, hp⟩
  · rcases h' with h' | ⟨h', -⟩
    · exact Or.inl (hlt h h')
    · exact Or.inl (hright h' ▸ h)
  · rcases h' with h' | ⟨h', hq⟩
    · exact Or.inl (hleft h ▸ h')
    · exact Or.inr ⟨hleft h ▸ h', hrest hp hq⟩

theorem compare_base_trans {a b c : BaseType} (h : compare a b = .lt) (h' : compare b c = .lt) :
    compare a c = .lt :=
  Nat.compare_eq_lt.2 (Nat.lt_trans (Nat.compare_eq_lt.1 h) (Nat.compare_eq_lt.1 h'))

theorem compare_cls_trans {a b c : NodeId} (h : compare a b = .lt) (h' : compare b c = .lt) :
    compare a c = .lt :=
  Nat.compare_eq_lt.2 (Nat.lt_trans (Nat.compare_eq_lt.1 h) (Nat.compare_eq_lt.1 h'))

/-- Trees are compared further only if they have the same outermost form. -/
theorem order_trans_of_same {a b c : TypeSet} (hsame : a.shape = b.shape → b.shape = c.shape →
    order a b = .lt → order b c = .lt → order a c = .lt) (h : order a b = .lt)
    (h' : order b c = .lt) : order a c = .lt := by
  have hab := shape_le_of_order h
  have hbc := shape_le_of_order h'
  by_cases hac : a.shape = c.shape
  · exact hsame (by omega) (by omega) h h'
  · rw [order_of_shape_ne hac, Nat.compare_eq_lt]
    omega

mutual

theorem order_trans_same : ∀ a b c : TypeSet, a.shape = b.shape → b.shape = c.shape →
    order a b = .lt → order b c = .lt → order a c = .lt
  | .base _, .base _, .base _, _, _, h, h' => compare_base_trans h h'
  | .arged _ x, .arged _ y, .arged _ z, _, _, h, h' =>
    then_trans compare_base_trans (fun h => by rw [BaseType.compare_eq_eq.1 h])
      (fun h => by rw [BaseType.compare_eq_eq.1 h]) (order_trans_of_same (order_trans_same x y z))
      h h'
  | .cls _, .cls _, .cls _, _, _, h, h' => compare_cls_trans h h'
  | .anyOf xs, .anyOf ys, .anyOf zs, _, _, h, h' => orderList_trans xs ys zs h h'
  | .univ, .univ, .univ, _, _, h, _ | .empty, .empty, .empty, _, _, h, _ => by cases h

theorem orderList_trans : ∀ xs ys zs : List TypeSet,
    orderList xs ys = .lt → orderList ys zs = .lt → orderList xs zs = .lt
  | [], _ :: _, _ :: _, _, _ => rfl
  | x :: xs, y :: ys, z :: zs, h, h' =>
    then_trans (order_trans_of_same (order_trans_same x y z)) (fun h => by rw [eq_of_order x y h])
      (fun h => by rw [eq_of_order y z h]) (orderList_trans xs ys zs) h h'

end

theorem order_trans (a b c : TypeSet) (h : order a b = .lt) (h' : order b c = .lt) :
    order a c = .lt :=
  order_trans_of_same (order_trans_same a b c) h h'

/-! ## Proper leaves -/

/-- Base types, classes, and containers with an argument that is such a leaf itself. -/
def Proper : TypeSet → Prop
  | .base _ | .cls _ => True
  | .arged b x => b.isContainer ∧ Proper x
  | _ => False

variable {x y : TypeSet} {xs ys : List TypeSet}

theorem Proper.isLeaf (h : Proper x) : x.isLeaf := by cases x <;> simp_all [Proper, TypeSet.isLeaf]

theorem Proper.ne_univ (h : Proper x) : x ≠ .univ := by
  rintro rfl
  exact h

theorem Proper.leaves (h : Proper x) : x.leaves = [x] := by
  cases x <;> simp_all [Proper, TypeSet.leaves]

theorem checkLeaf_eq_ok : ∀ {x : TypeSet}, x.isLeaf → (checkLeaf x = .ok () ↔ Proper x)
  | .base _, _ | .cls _, _ => by simp [checkLeaf, Proper]
  | .arged b x, _ => by
    by_cases hb : b.isContainer
    · by_cases hx : x.isLeaf
      · simp [checkLeaf, Proper, hb, hx, checkLeaf_eq_ok hx]
      · have : ¬ Proper x := fun h => hx h.isLeaf
        simp [checkLeaf, Proper, hx, hb, this]
    · simp [checkLeaf, Proper, hb]

theorem Proper.of_refines (hx : Proper x) (h : Refines x y) : Proper y := by
  induction h with
  | refl => exact hx
  | bare b x => exact trivial
  | arg b _ ih => exact ⟨hx.1, ih hx.2⟩

/-! ## Canonical sets -/

/-- The leaves stand in strictly ascending order. -/
def Ascending (xs : List TypeSet) : Prop := xs.Pairwise fun x y => order x y = .lt

/-- Everything, or proper leaves in order. -/
def Canonical (a : TypeSet) : Prop :=
  a = .univ ∨ ∃ xs, a = collect xs ∧ Ascending xs ∧ ∀ x ∈ xs, Proper x

namespace Ascending

theorem nodup (h : Ascending xs) : xs.Nodup := by
  refine List.Pairwise.imp ?_ h
  rintro x _ hlt rfl
  rw [order_self] at hlt
  cases hlt

/-- Strictly ascending lists with the same members are equal. -/
theorem ext (hx : Ascending xs) (hy : Ascending ys) (h : ∀ z, z ∈ xs ↔ z ∈ ys) : xs = ys := by
  have hperm : xs.Perm ys := (List.perm_ext_iff_of_nodup hx.nodup hy.nodup).2 h
  refine hperm.eq_of_pairwise (fun x y _ _ hlt hgt => ?_) hx hy
  have hself := order_trans _ _ _ hlt hgt
  rw [order_self] at hself
  cases hself

end Ascending

theorem mem_insertLeaf : y ∈ insertLeaf x xs ↔ y = x ∨ y ∈ xs := by
  fun_induction insertLeaf x xs with
  | case1 => simp
  | case2 z zs h => simp
  | case3 z zs h => simp [order_eq_eq.1 h]
  | case4 z zs h ih =>
    rw [List.mem_cons, ih, List.mem_cons]
    tauto

theorem ascending_insertLeaf (h : Ascending xs) : Ascending (insertLeaf x xs) := by
  fun_induction insertLeaf x xs with
  | case1 => exact List.pairwise_singleton _ _
  | case2 z zs hlt =>
    refine List.pairwise_cons.2 ⟨fun w hw => ?_, h⟩
    rcases List.mem_cons.1 hw with rfl | hw
    · exact hlt
    · exact order_trans _ _ _ hlt ((List.pairwise_cons.1 h).1 w hw)
  | case3 z zs heq => exact h
  | case4 z zs hgt ih =>
    obtain ⟨hz, hzs⟩ := List.pairwise_cons.1 h
    refine List.pairwise_cons.2 ⟨fun w hw => ?_, ih hzs⟩
    rcases mem_insertLeaf.1 hw with rfl | hw
    · exact order_gt hgt
    · exact hz w hw

theorem mem_foldr_insertLeaf : y ∈ xs.foldr insertLeaf [] ↔ y ∈ xs := by
  induction xs with
  | nil => simp
  | cons x xs ih => rw [List.foldr_cons, mem_insertLeaf, ih, List.mem_cons]

theorem ascending_foldr_insertLeaf (xs : List TypeSet) : Ascending (xs.foldr insertLeaf []) := by
  induction xs with
  | nil => exact List.Pairwise.nil
  | cons _ xs ih => exact ascending_insertLeaf ih

theorem leaves_collect (h : ∀ x ∈ xs, Proper x) : (collect xs).leaves = xs := by
  match xs, h with
  | [], _ => rfl
  | [x], h => exact (h x (by simp)).leaves
  | _ :: _ :: _, _ => rfl

theorem collect_ne_univ (h : ∀ x ∈ xs, Proper x) : collect xs ≠ .univ := by
  match xs, h with
  | [], _ => exact nofun
  | [x], h => exact (h x (by simp)).ne_univ
  | _ :: _ :: _, _ => exact nofun

theorem canonical_univ : Canonical .univ := Or.inl rfl

theorem canonical_empty : Canonical .empty := Or.inr ⟨[], rfl, List.Pairwise.nil, by simp⟩

theorem Proper.canonical (h : Proper x) : Canonical x :=
  Or.inr ⟨[x], rfl, List.pairwise_singleton _ _, by simpa using h⟩

theorem proper_foldr_insertLeaf (h : ∀ x ∈ xs, Proper x) :
    ∀ x ∈ xs.foldr insertLeaf [], Proper x :=
  fun x hx => h x (mem_foldr_insertLeaf.1 hx)

theorem canonical_ofLeaves (h : ∀ x ∈ xs, Proper x) : Canonical (ofLeaves xs) :=
  Or.inr ⟨_, rfl, ascending_foldr_insertLeaf xs, proper_foldr_insertLeaf h⟩

theorem mem_leaves_ofLeaves (h : ∀ x ∈ xs, Proper x) : y ∈ (ofLeaves xs).leaves ↔ y ∈ xs := by
  rw [ofLeaves, leaves_collect (proper_foldr_insertLeaf h), mem_foldr_insertLeaf]

theorem ofLeaves_ne_univ (h : ∀ x ∈ xs, Proper x) : ofLeaves xs ≠ .univ :=
  collect_ne_univ (proper_foldr_insertLeaf h)

namespace Canonical

variable {a b : TypeSet}

/-- A canonical set that is not everything is its leaves, collected. -/
theorem spec (h : Canonical a) (hne : a ≠ .univ) :
    a = collect a.leaves ∧ Ascending a.leaves ∧ ∀ x ∈ a.leaves, Proper x := by
  obtain rfl | ⟨xs, rfl, hxs, hproper⟩ := h
  · exact absurd rfl hne
  · rw [leaves_collect hproper]
    exact ⟨rfl, hxs, hproper⟩

theorem proper (h : Canonical a) (hne : a ≠ .univ) (hx : x ∈ a.leaves) : Proper x :=
  (h.spec hne).2.2 x hx

theorem leaves_eq_nil (h : Canonical a) : a.leaves = [] ↔ a = .empty := by
  constructor
  · intro hnil
    have hne : a ≠ .univ := by
      rintro rfl
      simp [leaves] at hnil
    rw [(h.spec hne).1, hnil]
    rfl
  · rintro rfl
    rfl

theorem ext (ha : Canonical a) (hb : Canonical b) (hua : a ≠ .univ) (hub : b ≠ .univ)
    (h : ∀ x, x ∈ a.leaves ↔ x ∈ b.leaves) : a = b := by
  rw [(ha.spec hua).1, (hb.spec hub).1, (ha.spec hua).2.1.ext (hb.spec hub).2.1 h]

end Canonical

/-! ## The check -/

theorem checkOperands_eq_ok (h : ∀ x ∈ xs, Proper x) : checkOperands xs = .ok () := by
  induction xs with
  | nil => rfl
  | cons x xs ih =>
    have hx := h x (by simp)
    simp [checkOperands, hx.isLeaf, (checkLeaf_eq_ok hx.isLeaf).2 hx,
      ih fun y hy => h y (by simp [hy])]

theorem Proper.check (h : Proper x) : x.check = .ok () := by
  have hleaf := (checkLeaf_eq_ok h.isLeaf).2 h
  cases x <;> first | exact hleaf | exact h.elim

/-- Proper leaves are the leaves that pass the check. -/
theorem proper_iff : Proper x ↔ x.isLeaf ∧ x.check = .ok () := by
  refine ⟨fun h => ⟨h.isLeaf, h.check⟩, fun ⟨hleaf, hcheck⟩ => (checkLeaf_eq_ok hleaf).1 ?_⟩
  cases x <;> first | exact hcheck | cases hleaf

instance : DecidablePred Proper := fun _ => decidable_of_iff _ proper_iff.symm

instance : DecidablePred Ascending := fun xs =>
  inferInstanceAs (Decidable (xs.Pairwise fun x y => order x y = .lt))

instance : DecidablePred Canonical := fun a => decidable_of_iff
  (a = .univ ∨ a = collect a.leaves ∧ Ascending a.leaves ∧ ∀ x ∈ a.leaves, Proper x)
  ⟨Or.imp_right fun h => ⟨a.leaves, h⟩, fun h => or_iff_not_imp_left.2 h.spec⟩

/-- Canonical sets pass the check. -/
theorem Canonical.check {a : TypeSet} (h : Canonical a) : a.check = .ok () := by
  obtain rfl | ⟨xs, rfl, -, hproper⟩ := h
  · rfl
  · match xs, hproper with
    | [], _ => rfl
    | [x], h => exact (h x (by simp)).check
    | _ :: _ :: _, h => exact checkOperands_eq_ok h

end TypeSet

end TypeFlow
