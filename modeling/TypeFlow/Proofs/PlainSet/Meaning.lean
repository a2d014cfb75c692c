import Mathlib.Data.Set.Basic
import Mathlib.Tactic.SplitIfs
import TypeFlow.Proofs.PlainSet.NormalForm
/-!
# What plain sets denote

In a universe where each base type stands for one element a plain set denotes a set of elements
(`denote`), and `union`, `inter` and `unionAll` denote what their names say.

An intersection of nothing denotes everything, but simplifies to nothing. Apart from this
simplification keeps what a set denotes: a simplified set denotes what the set denotes once its
intersections of nothing are made empty (`denote_simplify`), and this is the set itself if there is
no intersection of nothing in it (`emptyHollows_eq_self_iff`).
-/

namespace TypeFlow

namespace PlainSet

variable {α : Type*} {point : BaseType → α} {z : α} {a b x : PlainSet} {ops xs : List PlainSet}

/-! ## Denotation -/

mutual

/-- The elements that a plain set holds, where `point` is the element of each base type. -/
def denote (point : BaseType → α) : PlainSet → Set α
  | .univ => Set.univ
  | .empty => ∅
  | .base b => {point b}
  | .anyOf ops => denoteAny point ops
  | .allOf ops => denoteAll point ops

/-- The elements that at least one of the sets holds. -/
def denoteAny (point : BaseType → α) : List PlainSet → Set α
  | [] => ∅
  | x :: xs => denote point x ∪ denoteAny point xs

/-- The elements that each of the sets holds. -/
def denoteAll (point : BaseType → α) : List PlainSet → Set α
  | [] => Set.univ
  | x :: xs => denote point x ∩ denoteAll point xs

end

@[simp] theorem mem_denote_anyOf :
    z ∈ denote point (.anyOf ops) ↔ ∃ x ∈ ops, z ∈ denote point x := by
  rw [denote]
  induction ops with
  | nil => simp [denoteAny]
  | cons x xs ih => rw [denoteAny, Set.mem_union, ih, List.exists_mem_cons_iff]

@[simp] theorem mem_denote_allOf :
    z ∈ denote point (.allOf ops) ↔ ∀ x ∈ ops, z ∈ denote point x := by
  rw [denote]
  induction ops with
  | nil => simp [denoteAll]
  | cons x xs ih => rw [denoteAll, Set.mem_inter_iff, ih, List.forall_mem_cons]

/-! ## Union and intersection -/

@[simp] theorem mem_ordered : x ∈ ordered a b ↔ x = a ∨ x = b := by
  unfold ordered
  split_ifs
  · rw [List.mem_pair, or_comm]
  · exact List.mem_pair

theorem denote_union (point : BaseType → α) (a b : PlainSet) :
    denote point (a.union b) = denote point a ∪ denote point b := by
  unfold union
  split_ifs with huniv ha hb hab
  · rcases huniv with rfl | rfl <;> simp [denote]
  · simp [ha, denote]
  · simp [hb, denote]
  · rw [hab, Set.union_self]
  · ext z
    simp

theorem denote_inter (point : BaseType → α) (a b : PlainSet) :
    denote point (a.inter b) = denote point a ∩ denote point b := by
  unfold inter
  split_ifs with hempty ha hb hab
  · rcases hempty with rfl | rfl <;> simp [denote]
  · simp [ha, denote]
  · simp [hb, denote]
  · rw [hab, Set.inter_self]
  · ext z
    simp

theorem mem_denote_unionAll : z ∈ denote point (unionAll xs) ↔ ∃ x ∈ xs, z ∈ denote point x := by
  have hfold : ∀ c, z ∈ denote point (xs.foldl union c) ↔
      z ∈ denote point c ∨ ∃ x ∈ xs, z ∈ denote point x := by
    induction xs with
    | nil => simp
    | cons x xs ih =>
      intro c
      rw [List.foldl_cons, ih, denote_union, Set.mem_union, or_assoc, List.exists_mem_cons_iff]
  rw [unionAll, hfold]
  exact or_iff_right (Set.notMem_empty z)

/-! ## Intersections of nothing -/

/-- No part is an intersection of nothing. -/
def Solid (a : PlainSet) : Prop := ∀ b, PartOf b a → b ≠ .allOf []

theorem solid_iff : Solid a ↔ a ≠ .allOf [] ∧ ∀ x ∈ a.operands, Solid x := forall_partOf

theorem solid_of_not_isOperator (h : ¬ a.isOperator) : Solid a := by
  refine solid_iff.2 ⟨?_, ?_⟩ <;> cases a <;> simp_all [isOperator, operands]

mutual

/-- The set with the intersections of nothing in it made empty. -/
def emptyHollows : PlainSet → PlainSet
  | .anyOf ops => .anyOf (emptyHollowsEach ops)
  | .allOf [] => .empty
  | .allOf (x :: xs) => .allOf (emptyHollows x :: emptyHollowsEach xs)
  | leaf => leaf

def emptyHollowsEach : List PlainSet → List PlainSet
  | [] => []
  | x :: xs => emptyHollows x :: emptyHollowsEach xs

end

theorem emptyHollowsEach_eq_map (xs : List PlainSet) :
    emptyHollowsEach xs = xs.map emptyHollows := by
  induction xs with
  | nil => rfl
  | cons x xs ih => rw [emptyHollowsEach, ih, List.map_cons]

@[simp] theorem emptyHollows_anyOf (ops : List PlainSet) :
    emptyHollows (.anyOf ops) = .anyOf (ops.map emptyHollows) := by
  rw [emptyHollows, emptyHollowsEach_eq_map]

@[simp] theorem emptyHollows_allOf (h : ops ≠ []) :
    emptyHollows (.allOf ops) = .allOf (ops.map emptyHollows) := by
  cases ops with
  | nil => exact absurd rfl h
  | cons x xs => rw [emptyHollows, emptyHollowsEach_eq_map, List.map_cons]

theorem solid_emptyHollows (a : PlainSet) : Solid a.emptyHollows := by
  induction a using byOperands with
  | univ | empty | base b => exact solid_of_not_isOperator nofun
  | anyOf ops ih =>
    rw [emptyHollows_anyOf]
    exact solid_iff.2 ⟨nofun, List.forall_mem_map.2 ih⟩
  | allOf ops ih =>
    by_cases h : ops = []
    · subst h
      exact solid_of_not_isOperator nofun
    · rw [emptyHollows_allOf h]
      exact solid_iff.2 ⟨by simpa using h, List.forall_mem_map.2 ih⟩

theorem emptyHollows_of_solid (h : Solid a) : a.emptyHollows = a := by
  induction a using byOperands with
  | univ | empty | base b => rfl
  | anyOf ops ih =>
    obtain ⟨-, hops⟩ := solid_iff.1 h
    rw [emptyHollows_anyOf, map_eq_self fun x hx => ih x hx (hops x hx)]
  | allOf ops ih =>
    obtain ⟨hne, hops⟩ := solid_iff.1 h
    rw [emptyHollows_allOf fun heq => hne (by rw [heq]),
      map_eq_self fun x hx => ih x hx (hops x hx)]

theorem emptyHollows_eq_self_iff : a.emptyHollows = a ↔ Solid a :=
  ⟨fun h => h ▸ solid_emptyHollows a, emptyHollows_of_solid⟩

instance : DecidablePred Solid := fun a =>
  decidable_of_iff (a.emptyHollows = a) emptyHollows_eq_self_iff

theorem solid_union (ha : Solid a) (hb : Solid b) : Solid (a.union b) := by
  unfold union
  split_ifs
  · exact solid_of_not_isOperator nofun
  · exact hb
  · exact ha
  · exact ha
  · refine solid_iff.2 ⟨nofun, fun x hx => ?_⟩
    rcases mem_ordered.1 hx with rfl | rfl
    · exact ha
    · exact hb

theorem solid_unionAll (h : ∀ x ∈ xs, Solid x) : Solid (unionAll xs) := by
  have hfold : ∀ c, Solid c → Solid (xs.foldl union c) := by
    induction xs with
    | nil => exact fun c hc => hc
    | cons x xs ih =>
      obtain ⟨hx, hxs⟩ := List.forall_mem_cons.1 h
      exact fun c hc => ih hxs _ (solid_union hc hx)
  exact hfold .empty (solid_of_not_isOperator nofun)

/-! ## Simplification -/

theorem exists_spreadAny : (∃ y ∈ spreadAny x, z ∈ denote point y) ↔ z ∈ denote point x := by
  cases x <;> simp [spreadAny]

theorem forall_spreadAll : (∀ y ∈ spreadAll x, z ∈ denote point y) ↔ z ∈ denote point x := by
  cases x <;> simp [spreadAll]

theorem spreadAll_ne_nil (h : Normal x) : spreadAll x ≠ [] := by
  cases x with
  | allOf ops =>
    have htwo := (normal_iff.1 h).1.two_le rfl
    rintro (rfl : ops = [])
    simp [operands] at htwo
  | _ => simp [spreadAll]

theorem mem_denote_collapse_anyOf :
    z ∈ denote point (collapse .anyOf xs) ↔ ∃ x ∈ xs, z ∈ denote point x := by
  match xs with
  | [] => simp [collapse, denote]
  | [x] => simp [collapse]
  | _ :: _ :: _ => exact mem_denote_anyOf

/-- Without operands an intersection would collapse to nothing, and denote everything. -/
theorem mem_denote_collapse_allOf (hne : xs ≠ []) :
    z ∈ denote point (collapse .allOf xs) ↔ ∀ x ∈ xs, z ∈ denote point x := by
  match xs, hne with
  | [x], _ => simp [collapse]
  | _ :: _ :: _, _ => exact mem_denote_allOf

theorem mem_denote_simplify_anyOf :
    z ∈ denote point (anyOf ops).simplify ↔ ∃ x ∈ ops, z ∈ denote point x.simplify := by
  rw [simplify_anyOf, mem_denote_collapse_anyOf]
  simp only [mem_distinct, List.mem_flatMap, List.mem_map]
  constructor
  · rintro ⟨y, ⟨_, ⟨x, hx, rfl⟩, hy⟩, hz⟩
    exact ⟨x, hx, exists_spreadAny.1 ⟨y, hy, hz⟩⟩
  · rintro ⟨x, hx, hz⟩
    obtain ⟨y, hy, hz⟩ := exists_spreadAny.2 hz
    exact ⟨y, ⟨_, ⟨x, hx, rfl⟩, hy⟩, hz⟩

theorem mem_denote_simplify_allOf (hne : ops ≠ []) :
    z ∈ denote point (allOf ops).simplify ↔ ∀ x ∈ ops, z ∈ denote point x.simplify := by
  -- operands in normal form leave something to intersect
  have hsome : distinct ((ops.map simplify).flatMap spreadAll) ≠ [] := by
    obtain ⟨x, hx⟩ := List.exists_mem_of_ne_nil ops hne
    obtain ⟨y, hy⟩ := List.exists_mem_of_ne_nil _ (spreadAll_ne_nil (normal_simplify x))
    exact List.ne_nil_of_mem
      (mem_distinct.2 (List.mem_flatMap.2 ⟨_, List.mem_map_of_mem hx, hy⟩))
  rw [simplify_allOf, mem_denote_collapse_allOf hsome]
  simp only [mem_distinct, List.mem_flatMap, List.mem_map]
  constructor
  · intro h x hx
    exact forall_spreadAll.1 fun y hy => h y ⟨_, ⟨x, hx, rfl⟩, hy⟩
  · rintro h y ⟨_, ⟨x, hx, rfl⟩, hy⟩
    exact forall_spreadAll.2 (h x hx) y hy

/-- A simplified set denotes what the set denotes when its intersections of nothing are empty. -/
theorem denote_simplify (point : BaseType → α) (a : PlainSet) :
    denote point a.simplify = denote point a.emptyHollows := by
  induction a using byOperands with
  | univ | empty | base b => rfl
  | anyOf ops ih =>
    ext z
    rw [mem_denote_simplify_anyOf, emptyHollows_anyOf, mem_denote_anyOf]
    simp only [List.mem_map, exists_exists_and_eq_and]
    exact exists_congr fun x => and_congr_right fun hx => by rw [ih x hx]
  | allOf ops ih =>
    by_cases hne : ops = []
    · subst hne
      rfl
    · ext z
      rw [mem_denote_simplify_allOf hne, emptyHollows_allOf hne, mem_denote_allOf,
        List.forall_mem_map]
      exact forall₂_congr fun x hx => by rw [ih x hx]

theorem denote_simplify_of_solid (point : BaseType → α) (h : Solid a) :
    denote point a.simplify = denote point a := by
  rw [denote_simplify, emptyHollows_of_solid h]

end PlainSet

end TypeFlow
