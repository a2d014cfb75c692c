import Mathlib.Data.List.Nodup
import TypeFlow.PlainSet.Normal
/-!
# The normal form of plain sets

A plain set is in normal form if each operator in it, at any depth, has at least two operands, all
different and none of its own kind (`Normal`). `simplify` reaches this form in one pass from the
inside out, and the sets in this form are exactly those that it leaves as they are
(`simplify_reaches_normal`).

Unions and intersections are simplified alike, and what is proved of either is proved of an operator
and the operands that a simplified operand brings to it (`Spreading`). An operand that is itself in
normal form brings operands that are, and none of them is of the operator's kind any more. So what a
collapse leaves over is in normal form, whether it is one of these operands or the operator.
-/

namespace TypeFlow

namespace PlainSet

variable {a b x : PlainSet} {xs kept : List PlainSet}

/-! ## Parts -/

/-- The operands of an operator; a leaf has none. -/
def operands : PlainSet → List PlainSet
  | .anyOf ops | .allOf ops => ops
  | _ => []

/-- Unions and intersections, of however many operands. -/
def isOperator : PlainSet → Bool
  | .anyOf _ | .allOf _ => true
  | _ => false

/-- A set is part of itself, and of what it is part of an operand of. -/
inductive PartOf : PlainSet → PlainSet → Prop
  | self (a : PlainSet) : PartOf a a
  | operand {a b x : PlainSet} (hx : x ∈ a.operands) (h : PartOf b x) : PartOf b a

/-- What holds of every part of a set is what holds of the set and of every part of its operands. -/
theorem forall_partOf {P : PlainSet → Prop} :
    (∀ b, PartOf b a → P b) ↔ P a ∧ ∀ x ∈ a.operands, ∀ b, PartOf b x → P b := by
  constructor
  · intro h
    exact ⟨h a (.self a), fun x hx b hb => h b (.operand hx hb)⟩
  · rintro ⟨hself, hoperands⟩ b hb
    cases hb with
    | self => exact hself
    | operand hx hb => exact hoperands _ hx b hb

/-- Induction over a set, with a hypothesis for each operand. -/
theorem byOperands {P : PlainSet → Prop} (univ : P .univ) (empty : P .empty)
    (base : ∀ b, P (.base b)) (anyOf : ∀ ops, (∀ x ∈ ops, P x) → P (.anyOf ops))
    (allOf : ∀ ops, (∀ x ∈ ops, P x) → P (.allOf ops)) : ∀ a, P a
  | .univ => univ
  | .empty => empty
  | .base b => base b
  | .anyOf ops => anyOf ops fun x _ => byOperands univ empty base anyOf allOf x
  | .allOf ops => allOf ops fun x _ => byOperands univ empty base anyOf allOf x

/-! ## The form -/

/-- What an operator needs on its own: no operand of its kind, at least two, and none twice. -/
structure Tidy (a : PlainSet) : Prop where
  apart : ∀ x ∈ a.operands, x.shape ≠ a.shape
  two_le : a.isOperator → 2 ≤ a.operands.length
  nodup : a.operands.Nodup

/-- All parts are tidy. -/
def Normal (a : PlainSet) : Prop := ∀ b, PartOf b a → Tidy b

theorem normal_iff : Normal a ↔ Tidy a ∧ ∀ x ∈ a.operands, Normal x := forall_partOf

theorem normal_of_not_isOperator (h : ¬ a.isOperator) : Normal a := by
  refine normal_iff.2 ⟨⟨?_, fun hop => absurd hop h, ?_⟩, ?_⟩ <;>
    cases a <;> simp_all [isOperator, operands]

/-! ## Distinct operands -/

theorem mem_distinctFrom : x ∈ distinctFrom kept xs ↔ x ∈ xs ∧ x ∉ kept := by
  induction xs generalizing kept with
  | nil => simp [distinctFrom]
  | cons y ys ih =>
    by_cases hy : y ∈ kept
    · rw [distinctFrom, if_pos hy, ih, List.mem_cons]
      refine ⟨fun h => ⟨Or.inr h.1, h.2⟩, fun ⟨hmem, hx⟩ => ⟨?_, hx⟩⟩
      exact hmem.resolve_left fun heq => hx (heq ▸ hy)
    · rw [distinctFrom, if_neg hy, List.mem_cons, ih, List.mem_cons, List.mem_cons]
      constructor
      · rintro (rfl | ⟨hmem, hx⟩)
        · exact ⟨Or.inl rfl, hy⟩
        · exact ⟨Or.inr hmem, fun h => hx (Or.inr h)⟩
      · rintro ⟨rfl | hmem, hx⟩
        · exact Or.inl rfl
        · by_cases heq : x = y
          · exact Or.inl heq
          · exact Or.inr ⟨hmem, fun h => h.elim heq hx⟩

theorem nodup_distinctFrom : (distinctFrom kept xs).Nodup := by
  induction xs generalizing kept with
  | nil => exact List.nodup_nil
  | cons y ys ih =>
    by_cases hy : y ∈ kept
    · rw [distinctFrom, if_pos hy]
      exact ih
    · rw [distinctFrom, if_neg hy, List.nodup_cons, mem_distinctFrom]
      exact ⟨fun h => h.2 (by simp), ih⟩

theorem distinctFrom_eq_self (hxs : xs.Nodup) (hkept : ∀ x ∈ xs, x ∉ kept) :
    distinctFrom kept xs = xs := by
  induction xs generalizing kept with
  | nil => rfl
  | cons y ys ih =>
    obtain ⟨hy, hys⟩ := List.nodup_cons.1 hxs
    rw [distinctFrom, if_neg (hkept y (by simp)), ih hys fun x hx => ?_]
    rw [List.mem_cons]
    rintro (rfl | h)
    · exact hy hx
    · exact hkept x (List.mem_cons_of_mem y hx) h

@[simp] theorem mem_distinct : x ∈ distinct xs ↔ x ∈ xs := by
  rw [distinct, mem_distinctFrom]
  simp

theorem nodup_distinct (xs : List PlainSet) : (distinct xs).Nodup := nodup_distinctFrom

theorem distinct_eq_self (h : xs.Nodup) : distinct xs = xs := distinctFrom_eq_self h (by simp)

/-! ## One operator -/

/-- An operator of some shape, and what an operand brings to it: its own operands if it is that
operator again, and otherwise itself. -/
structure Spreading (operator : List PlainSet → PlainSet) (spread : PlainSet → List PlainSet)
    (kind : Nat) : Prop where
  isOperator : ∀ ops, (operator ops).isOperator
  shape_operator : ∀ ops, (operator ops).shape = kind
  operands_operator : ∀ ops, (operator ops).operands = ops
  spread_same : ∀ {x : PlainSet}, x.shape = kind → spread x = x.operands
  spread_other : ∀ {x : PlainSet}, x.shape ≠ kind → spread x = [x]

theorem spreading_anyOf : Spreading .anyOf spreadAny 2 where
  isOperator _ := rfl
  shape_operator _ := rfl
  operands_operator _ := rfl
  spread_same {x} h := by cases x <;> first | rfl | cases h
  spread_other {x} h := by cases x <;> first | rfl | exact absurd rfl h

theorem spreading_allOf : Spreading .allOf spreadAll 3 where
  isOperator _ := rfl
  shape_operator _ := rfl
  operands_operator _ := rfl
  spread_same {x} h := by cases x <;> first | rfl | cases h
  spread_other {x} h := by cases x <;> first | rfl | exact absurd rfl h

theorem collapse_of_two_le (operator : List PlainSet → PlainSet) (h : 2 ≤ xs.length) :
    collapse operator xs = operator xs := by
  match xs, h with
  | _ :: _ :: _, _ => rfl

namespace Spreading

variable {operator : List PlainSet → PlainSet} {spread : PlainSet → List PlainSet} {kind : Nat}
  (h : Spreading operator spread kind)

include h

/-- What a set in normal form brings to an operator is in normal form and of another kind. -/
theorem normal_of_mem (hx : Normal x) (hb : b ∈ spread x) : Normal b ∧ b.shape ≠ kind := by
  by_cases hkind : x.shape = kind
  · rw [h.spread_same hkind] at hb
    obtain ⟨htidy, hoperands⟩ := normal_iff.1 hx
    exact ⟨hoperands b hb, hkind ▸ htidy.apart b hb⟩
  · rw [h.spread_other hkind, List.mem_singleton] at hb
    exact hb ▸ ⟨hx, hkind⟩

/-- Different operands in normal form, none of them of the operator's kind, collapse to a set in
normal form. -/
theorem normal_collapse (hxs : ∀ x ∈ xs, Normal x ∧ x.shape ≠ kind) (hnodup : xs.Nodup) :
    Normal (collapse operator xs) := by
  match xs, hxs with
  | [], _ => exact normal_of_not_isOperator nofun
  | [x], hxs => exact (hxs x (by simp)).1
  | x :: y :: rest, hxs =>
    refine normal_iff.2 ⟨⟨?_, ?_, ?_⟩, ?_⟩ <;>
      simp only [collapse, h.operands_operator, h.shape_operator]
    · exact fun z hz => (hxs z hz).2
    · exact fun _ => by simp
    · exact hnodup
    · exact fun z hz => (hxs z hz).1

/-- Simplified operands give a simplified set. -/
theorem normal_collapse_distinct (hxs : ∀ x ∈ xs, Normal x) :
    Normal (collapse operator (distinct (xs.flatMap spread))) := by
  refine h.normal_collapse (fun b hb => ?_) (nodup_distinct _)
  obtain ⟨x, hx, hb⟩ := List.mem_flatMap.1 (mem_distinct.1 hb)
  exact h.normal_of_mem (hxs x hx) hb

/-- A tidy operator is collapsed from its own operands. -/
theorem collapse_distinct_eq_self (htidy : Tidy (operator xs)) :
    collapse operator (distinct (xs.flatMap spread)) = operator xs := by
  have hspread : xs.flatMap spread = xs := by
    have hapart := htidy.apart
    rw [h.operands_operator, h.shape_operator] at hapart
    exact (List.flatMap_congr fun x hx => h.spread_other (hapart x hx)).trans
      (List.flatMap_singleton' xs)
  have htwo := htidy.two_le (h.isOperator xs)
  have hnodup := htidy.nodup
  rw [h.operands_operator] at htwo hnodup
  rw [hspread, distinct_eq_self hnodup, collapse_of_two_le operator htwo]

end Spreading

/-! ## Simplification -/

theorem simplifyEach_eq_map (xs : List PlainSet) : simplifyEach xs = xs.map simplify := by
  induction xs with
  | nil => rfl
  | cons x xs ih => rw [simplifyEach, ih, List.map_cons]

theorem simplify_anyOf (ops : List PlainSet) : (anyOf ops).simplify =
    collapse .anyOf (distinct ((ops.map simplify).flatMap spreadAny)) := by
  rw [simplify, simplifyEach_eq_map]

theorem simplify_allOf (ops : List PlainSet) : (allOf ops).simplify =
    collapse .allOf (distinct ((ops.map simplify).flatMap spreadAll)) := by
  rw [simplify, simplifyEach_eq_map]

theorem map_eq_self {f : PlainSet → PlainSet} (h : ∀ x ∈ xs, f x = x) : xs.map f = xs :=
  (List.map_congr_left h).trans (List.map_id xs)

theorem normal_simplify (a : PlainSet) : Normal a.simplify := by
  induction a using byOperands with
  | univ | empty | base b => exact normal_of_not_isOperator nofun
  | anyOf ops ih =>
    rw [simplify_anyOf]
    exact spreading_anyOf.normal_collapse_distinct (List.forall_mem_map.2 ih)
  | allOf ops ih =>
    rw [simplify_allOf]
    exact spreading_allOf.normal_collapse_distinct (List.forall_mem_map.2 ih)

theorem simplify_of_normal (h : Normal a) : a.simplify = a := by
  induction a using byOperands with
  | univ | empty | base b => rfl
  | anyOf ops ih =>
    obtain ⟨htidy, hops⟩ := normal_iff.1 h
    rw [simplify_anyOf, map_eq_self fun x hx => ih x hx (hops x hx)]
    exact spreading_anyOf.collapse_distinct_eq_self htidy
  | allOf ops ih =>
    obtain ⟨htidy, hops⟩ := normal_iff.1 h
    rw [simplify_allOf, map_eq_self fun x hx => ih x hx (hops x hx)]
    exact spreading_allOf.collapse_distinct_eq_self htidy

theorem simplify_eq_self_iff : a.simplify = a ↔ Normal a :=
  ⟨fun h => h ▸ normal_simplify a, simplify_of_normal⟩

instance : DecidablePred Normal := fun a => decidable_of_iff (a.simplify = a) simplify_eq_self_iff

/-- One simplification reaches the normal form. It keeps a set as it is exactly if the set has that
form already, which is what `isSimplified` tells, and so a second one changes nothing. -/
theorem simplify_reaches_normal (a : PlainSet) :
    Normal a.simplify ∧ (a.simplify = a ↔ Normal a) ∧ (a.isSimplified = true ↔ Normal a) ∧
      a.simplify.simplify = a.simplify :=
  ⟨normal_simplify a, simplify_eq_self_iff, decide_eq_true_iff.trans simplify_eq_self_iff,
    simplify_of_normal (normal_simplify a)⟩

/-- Two equal unions leave their intersection collapsed to one of them, which is spread in turn and
brings an operand for the second time. -/
example :
    let p : PlainSet := .anyOf [.base .float, .base .int]
    (anyOf [.base .int, .allOf [p, p], .allOf []]).simplify =
      .anyOf [.base .int, .base .float, .empty] := by
  decide

end PlainSet

end TypeFlow
