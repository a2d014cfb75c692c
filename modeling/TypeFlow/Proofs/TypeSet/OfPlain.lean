import Mathlib.Data.Set.Insert
import TypeFlow.Operator.Typing
import TypeFlow.Proofs.PlainSet.Meaning
import TypeFlow.Proofs.TypeSet.Within
/-!
# What plain sets are lifted to

The type set that a plain set writes is everything, or has base types as its leaves
(`over_ofPlain`). Such sets are told apart by the base types they admit and by whether they admit
more than these, and so two plain sets are lifted to the same type set exactly if they denote the
same in a universe of the base types and one element more (`ofPlain_eq_iff`).

All about lifting follows from what plain sets denote. It takes unions and intersections to unions
and intersections, and the union of a list to a set that depends on the members of the list alone,
which makes the domain of an operator independent of the order of its rows (`ofPlain_homomorphism`).
Simplification does not change what a set is lifted to, as long as no intersection of nothing is
lifted to everything (`ofPlain_simplify`, `ofPlain_simplify_fails`).
-/

namespace TypeFlow

namespace TypeSet

variable {a b : TypeSet} {z : Option BaseType}

/-! ## Sets of base types -/

/-- A leaf that is a base type. -/
def IsBase (x : TypeSet) : Prop := ∃ b, x = .base b

/-- Base types stand for themselves. A class, which lies below none of them, stands for all else. -/
def leafOf : Option BaseType → TypeSet
  | some b => .base b
  | none => .cls ⟨0⟩

theorem leafOf_refines_base {b : BaseType} : Refines (leafOf z) (.base b) ↔ z = some b := by
  rw [refines_base_iff]
  cases z <;> simp [leafOf]

/-- What a set of base types admits are its leaves. -/
theorem admits_leafOf (ha : Over IsBase a) :
    Admits a (leafOf z) ↔ a = .univ ∨ ∃ b, .base b ∈ a.leaves ∧ z = some b := by
  refine or_congr_right' fun hua => ⟨?_, ?_⟩
  · rintro ⟨y, hy, hzy⟩
    obtain ⟨b, rfl⟩ := ha.2 hua y hy
    exact ⟨b, hy, leafOf_refines_base.1 hzy⟩
  · rintro ⟨b, hb, hz⟩
    exact ⟨.base b, hb, leafOf_refines_base.2 hz⟩

/-- Sets of base types that admit the same are equal. -/
theorem Over.eq_of_admits (ha : Over IsBase a) (hb : Over IsBase b)
    (h : ∀ z, Admits a (leafOf z) ↔ Admits b (leafOf z)) : a = b := by
  simp only [admits_leafOf ha, admits_leafOf hb] at h
  have huniv : a = .univ ↔ b = .univ := by simpa using h none
  by_cases hua : a = .univ
  · rw [hua, huniv.1 hua]
  have hub : b ≠ .univ := fun hub => hua (huniv.2 hub)
  have hbase : ∀ c, .base c ∈ a.leaves ↔ .base c ∈ b.leaves := fun c => by
    simpa [hua, hub] using h (some c)
  refine ha.1.ext hb.1 hua hub fun x => ⟨fun hx => ?_, fun hx => ?_⟩
  · obtain ⟨c, rfl⟩ := ha.2 hua x hx
    exact (hbase c).1 hx
  · obtain ⟨c, rfl⟩ := hb.2 hub x hx
    exact (hbase c).2 hx

/-! ## Lifted sets -/

mutual

theorem over_ofPlain : ∀ p : PlainSet, Over IsBase (ofPlain p)
  | .univ => over_univ
  | .empty => over_empty
  | .base b => Proper.over trivial ⟨b, rfl⟩
  | .anyOf ops => over_unionPlain over_empty ops
  | .allOf ops => over_interPlain over_univ ops

theorem over_unionPlain : ∀ {c : TypeSet}, Over IsBase c → ∀ ops : List PlainSet,
    Over IsBase (unionPlain c ops)
  | _, hc, [] => hc
  | _, hc, x :: xs => over_unionPlain (over_union hc (over_ofPlain x)) xs

theorem over_interPlain : ∀ {c : TypeSet}, Over IsBase c → ∀ ops : List PlainSet,
    Over IsBase (interPlain c ops)
  | _, hc, [] => hc
  | _, hc, x :: xs => over_interPlain (over_inter hc (over_ofPlain x)) xs

end

theorem canonical_ofPlain (p : PlainSet) : Canonical (ofPlain p) := (over_ofPlain p).1

mutual

/-- What a plain set is lifted to admits what the plain set denotes. -/
theorem admits_ofPlain : ∀ p : PlainSet, Admits (ofPlain p) (leafOf z) ↔ z ∈ p.denote some
  | .univ => iff_of_true (Or.inl rfl) trivial
  | .empty => by simp [ofPlain, Admits, leaves, PlainSet.denote]
  | .base b => by simp [ofPlain, Admits, leaves, PlainSet.denote, leafOf_refines_base]
  | .anyOf ops => by
    rw [ofPlain, admits_unionPlain canonical_empty ops, PlainSet.denote]
    simp [Admits, leaves]
  | .allOf ops => by
    rw [ofPlain, admits_interPlain canonical_univ ops, PlainSet.denote]
    simp [Admits]

theorem admits_unionPlain : ∀ {c : TypeSet}, Canonical c → ∀ ops : List PlainSet,
    (Admits (unionPlain c ops) (leafOf z) ↔ Admits c (leafOf z) ∨ z ∈ PlainSet.denoteAny some ops)
  | _, _, [] => (or_iff_left (Set.notMem_empty z)).symm
  | c, hc, x :: xs => by
    rw [unionPlain, admits_unionPlain (canonical_union hc (canonical_ofPlain x)) xs,
      admits_union hc (canonical_ofPlain x), admits_ofPlain x, or_assoc, PlainSet.denoteAny,
      Set.mem_union]

theorem admits_interPlain : ∀ {c : TypeSet}, Canonical c → ∀ ops : List PlainSet,
    (Admits (interPlain c ops) (leafOf z) ↔ Admits c (leafOf z) ∧ z ∈ PlainSet.denoteAll some ops)
  | _, _, [] => (and_iff_left (Set.mem_univ z)).symm
  | c, hc, x :: xs => by
    rw [interPlain, admits_interPlain (canonical_inter hc (canonical_ofPlain x)) xs,
      admits_inter hc (canonical_ofPlain x), admits_ofPlain x, and_assoc, PlainSet.denoteAll,
      Set.mem_inter_iff]

end

variable {p q : PlainSet}

/-- Plain sets are lifted to the same type set exactly if they denote the same. -/
theorem ofPlain_eq_iff : ofPlain p = ofPlain q ↔ p.denote some = q.denote some := by
  constructor
  · intro h
    ext z
    rw [← admits_ofPlain, h, admits_ofPlain]
  · intro h
    refine (over_ofPlain p).eq_of_admits (over_ofPlain q) fun z => ?_
    rw [admits_ofPlain, h, admits_ofPlain]

/-! ## Simplified sets -/

theorem ofPlain_simplify_of_solid (h : p.Solid) : ofPlain p.simplify = ofPlain p :=
  ofPlain_eq_iff.2 (PlainSet.denote_simplify_of_solid some h)

/-- A simplified set is lifted to what the set is lifted to when its intersections of nothing are
made empty, which is the same as before if there are none. -/
theorem ofPlain_simplify (p : PlainSet) :
    ofPlain p.simplify = ofPlain p.emptyHollows ∧ (p.Solid → ofPlain p.simplify = ofPlain p) :=
  ⟨ofPlain_eq_iff.2 (PlainSet.denote_simplify some p), ofPlain_simplify_of_solid⟩

/-- Everything and an empty union on all levels, operators of one operand, and repeated operands. -/
theorem ofPlain_simplify_nested :
    let p : PlainSet := .anyOf [.allOf [.anyOf [.base .float, .base .int], .univ, .univ],
      .anyOf [.anyOf [], .base .int], .allOf [.base .string, .base .bool]]
    p.Solid ∧ ofPlain p.simplify = ofPlain p ∧ p.simplify ≠ p ∧
      ofPlain p = .anyOf [.base .int, .base .float] := by
  intro p
  have hp : p.Solid := by decide
  exact ⟨hp, (ofPlain_simplify p).2 hp, by decide, by decide⟩

/-- An intersection of nothing simplifies to nothing and is lifted to everything. -/
theorem ofPlain_simplify_fails : ofPlain (PlainSet.allOf []).simplify ≠ ofPlain (.allOf []) := by
  decide

/-! ## Lifting as a homomorphism -/

theorem ofPlain_union (p q : PlainSet) : ofPlain (p.union q) = (ofPlain p).union (ofPlain q) := by
  refine (over_ofPlain _).eq_of_admits (over_union (over_ofPlain p) (over_ofPlain q)) fun z => ?_
  rw [admits_union (canonical_ofPlain p) (canonical_ofPlain q), admits_ofPlain, admits_ofPlain,
    admits_ofPlain, PlainSet.denote_union, Set.mem_union]

theorem ofPlain_inter (p q : PlainSet) : ofPlain (p.inter q) = (ofPlain p).inter (ofPlain q) := by
  refine (over_ofPlain _).eq_of_admits (over_inter (over_ofPlain p) (over_ofPlain q)) fun z => ?_
  rw [admits_inter (canonical_ofPlain p) (canonical_ofPlain q), admits_ofPlain, admits_ofPlain,
    admits_ofPlain, PlainSet.denote_inter, Set.mem_inter_iff]

/-- Only the members of a list matter to what its union is lifted to. -/
theorem ofPlain_unionAll_congr {ps qs : List PlainSet} (h : ∀ p, p ∈ ps ↔ p ∈ qs) :
    ofPlain (PlainSet.unionAll ps) = ofPlain (PlainSet.unionAll qs) := by
  refine ofPlain_eq_iff.2 (Set.ext fun z => ?_)
  simp only [PlainSet.mem_denote_unionAll, h]

theorem domain_eq_ofPlain_unionAll (op : BinaryOp) (rows : List BinaryOp.Row)
    (h : ∀ r, r ∈ rows ↔ r ∈ op.rows) :
    ofPlain (PlainSet.unionAll (rows.map fun r => .base r.result)).simplify = op.domain := by
  have hsolid : ∀ rows : List BinaryOp.Row,
      (PlainSet.unionAll (rows.map fun r => .base r.result)).Solid := fun rows =>
    PlainSet.solid_unionAll
      (List.forall_mem_map.2 fun r _ => PlainSet.solid_of_not_isOperator nofun)
  rw [BinaryOp.domain, ofPlain_simplify_of_solid (hsolid rows),
    ofPlain_simplify_of_solid (hsolid op.rows)]
  refine ofPlain_unionAll_congr fun p => ?_
  simp only [List.mem_map, h]

/-- Lifting takes unions to unions and intersections to intersections, and yields canonical sets.
The union of a list is lifted to one set for all lists with the same members. So the domain of an
operator comes out the same in whatever order its rows are listed, and however often. -/
theorem ofPlain_homomorphism :
    (∀ p q, ofPlain (p.union q) = (ofPlain p).union (ofPlain q)) ∧
    (∀ p q, ofPlain (p.inter q) = (ofPlain p).inter (ofPlain q)) ∧
    (∀ p, Canonical (ofPlain p)) ∧
    (∀ ps qs : List PlainSet, (∀ p, p ∈ ps ↔ p ∈ qs) →
      ofPlain (PlainSet.unionAll ps) = ofPlain (PlainSet.unionAll qs)) ∧
    (∀ (op : BinaryOp) (rows : List BinaryOp.Row), (∀ r, r ∈ rows ↔ r ∈ op.rows) →
      ofPlain (PlainSet.unionAll (rows.map fun r => .base r.result)).simplify = op.domain) :=
  ⟨ofPlain_union, ofPlain_inter, canonical_ofPlain, fun _ _ => ofPlain_unionAll_congr,
    domain_eq_ofPlain_unionAll⟩

/-- Three sets forwards, and backwards and forwards again, where the trees of the unions differ, and
the rows of an addition backwards. -/
theorem ofPlain_homomorphism_reversed :
    let ps : List PlainSet :=
      [.base .string, .allOf [.univ, .base .bool], .anyOf [.base .int, .base .string]]
    let qs := ps.reverse ++ ps
    let rows := BinaryOp.add.rows.reverse
    ((∀ p, p ∈ ps ↔ p ∈ qs) ∧ ∀ r, r ∈ rows ↔ r ∈ BinaryOp.add.rows) ∧
    PlainSet.unionAll ps ≠ PlainSet.unionAll qs ∧
    ofPlain (PlainSet.unionAll ps) = ofPlain (PlainSet.unionAll qs) ∧
    ofPlain (PlainSet.unionAll (rows.map fun r => .base r.result)).simplify =
      BinaryOp.add.domain := by
  intro ps qs rows
  have hps : ∀ p, p ∈ ps ↔ p ∈ qs := fun p => by
    rw [List.mem_append, List.mem_reverse, or_self]
  have hrows : ∀ r, r ∈ rows ↔ r ∈ BinaryOp.add.rows := fun r => List.mem_reverse
  obtain ⟨-, -, -, hlists, hdomain⟩ := ofPlain_homomorphism
  exact ⟨⟨hps, hrows⟩, by decide, hlists ps qs hps, hdomain .add rows hrows⟩

end TypeSet

end TypeFlow
