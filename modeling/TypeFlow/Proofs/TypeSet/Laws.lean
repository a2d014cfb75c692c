import TypeFlow.Proofs.TypeSet.Within
/-!
# Laws of union and intersection

On canonical sets both operations are commutative, associative and idempotent, as equalities of
trees, each with a neutral and an absorbing set, and intersections distribute over unions of sets
other than everything (`union_inter_laws`).

Commutativity, associativity and idempotence are all it takes for a set put together from others to
depend on which others these were, and not on their order, their grouping or how often they came
(`Pooling.value_eq_foldl`). Sets that change nothing may be left out of a pool
(`Pooling.foldl_eq_of_absorbed`), and what a set has changed once never becomes the same again
(`Pooling.foldl_op_ne`).
-/

namespace TypeFlow

namespace TypeSet

variable {a b c x : TypeSet} {xs ys : List TypeSet}

/-! ## Unions -/

@[simp] theorem union_self (a : TypeSet) : a.union a = a := by
  unfold union
  split_ifs with h <;> simp_all

@[simp] theorem union_empty (a : TypeSet) : a.union .empty = a := by
  by_cases ha : a = .univ
  · rw [ha, univ_union]
  · simp +contextual [union, ha]

@[simp] theorem empty_union (a : TypeSet) : empty.union a = a := by
  by_cases ha : a = .univ
  · rw [ha, union_univ]
  · simp [union, ha]

theorem union_comm (ha : Canonical a) (hb : Canonical b) : a.union b = b.union a :=
  Sub.antisymm (canonical_union ha hb) (canonical_union hb ha)
    (union_sub ha hb (sub_union_right hb ha) (sub_union_left hb ha))
    (union_sub hb ha (sub_union_right ha hb) (sub_union_left ha hb))

theorem union_assoc (ha : Canonical a) (hb : Canonical b) (hc : Canonical c) :
    (a.union b).union c = a.union (b.union c) := by
  have hab := canonical_union ha hb
  have hbc := canonical_union hb hc
  refine Sub.antisymm (canonical_union hab hc) (canonical_union ha hbc) ?_ ?_
  · have hright := sub_union_right ha hbc
    exact union_sub hab hc
      (union_sub ha hb (sub_union_left ha hbc) ((sub_union_left hb hc).trans hright))
      ((sub_union_right hb hc).trans hright)
  · have hleft := sub_union_left hab hc
    exact union_sub ha hbc ((sub_union_left ha hb).trans hleft)
      (union_sub hb hc ((sub_union_right ha hb).trans hleft) (sub_union_right hab hc))

/-! ## Intersections -/

@[simp] theorem inter_self (a : TypeSet) : a.inter a = a := by
  unfold inter
  split_ifs with h <;> simp_all

@[simp] theorem inter_empty (a : TypeSet) : a.inter .empty = .empty := by simp [inter]

@[simp] theorem empty_inter (a : TypeSet) : empty.inter a = .empty := by simp [inter]

theorem inter_comm (ha : Canonical a) (hb : Canonical b) : a.inter b = b.inter a := by
  by_cases hua : a = .univ
  · rw [hua, univ_inter, inter_univ]
  by_cases hub : b = .univ
  · rw [hub, univ_inter, inter_univ]
  refine (hasLeaves_inter ha hb hua hub).eq (hasLeaves_inter hb ha hub hua) fun x => ?_
  rw [or_comm, and_comm (a := Admits a x)]

theorem inter_assoc (ha : Canonical a) (hb : Canonical b) (hc : Canonical c) :
    (a.inter b).inter c = a.inter (b.inter c) := by
  by_cases hua : a = .univ
  · rw [hua, univ_inter, univ_inter]
  by_cases hub : b = .univ
  · rw [hub, univ_inter, inter_univ]
  by_cases huc : c = .univ
  · rw [huc, inter_univ, inter_univ]
  have hab := hasLeaves_inter ha hb hua hub
  have hbc := hasLeaves_inter hb hc hub huc
  -- either way, the leaves of the three that all three admit
  refine (hasLeaves_inter hab.canonical hc hab.ne_univ huc).eq
    (hasLeaves_inter ha hbc.canonical hua hbc.ne_univ) fun x => ?_
  rw [hab.mem_iff, hbc.mem_iff, admits_inter ha hb, admits_inter hb hc]
  grind

/-! ## Distribution -/

/-- Intersections distribute over unions, everything apart. A union with everything forgets the
leaves of the other operand, which the intersections with each may keep. -/
theorem inter_union (ha : Canonical a) (hb : Canonical b) (hc : Canonical c) (hua : a ≠ .univ)
    (hub : b ≠ .univ) (huc : c ≠ .univ) :
    a.inter (b.union c) = (a.inter b).union (a.inter c) := by
  have hbc := hasLeaves_union hb hc hub huc
  have hab := hasLeaves_inter ha hb hua hub
  have hac := hasLeaves_inter ha hc hua huc
  refine (hasLeaves_inter ha hbc.canonical hua hbc.ne_univ).eq
    (hasLeaves_union hab.canonical hac.canonical hab.ne_univ hac.ne_univ) fun x => ?_
  rw [hbc.mem_iff, hab.mem_iff, hac.mem_iff, admits_union hb hc]
  -- a leaf of either operand of the union is admitted by that operand
  have hxb : x ∈ b.leaves → Admits b x := admits_of_mem
  have hxc : x ∈ c.leaves → Admits c x := admits_of_mem
  grind

/-! ## The laws together -/

/-- Both operations keep canonical sets canonical and are commutative, associative and idempotent
there. Everything absorbs in unions and is neutral in intersections, nothing is neutral in unions
and absorbs in intersections, and intersections distribute over unions of sets other than
everything. -/
theorem union_inter_laws (ha : Canonical a) (hb : Canonical b) (hc : Canonical c) :
    (Canonical (a.union b) ∧ Canonical (a.inter b)) ∧
    (a.union b = b.union a ∧ a.inter b = b.inter a) ∧
    ((a.union b).union c = a.union (b.union c) ∧ (a.inter b).inter c = a.inter (b.inter c)) ∧
    (a.union a = a ∧ a.inter a = a) ∧
    (a.union .univ = .univ ∧ a.union .empty = a) ∧
    (a.inter .empty = .empty ∧ a.inter .univ = a) ∧
    (a ≠ .univ → b ≠ .univ → c ≠ .univ →
      a.inter (b.union c) = (a.inter b).union (a.inter c)) :=
  ⟨⟨canonical_union ha hb, canonical_inter ha hb⟩, ⟨union_comm ha hb, inter_comm ha hb⟩,
    ⟨union_assoc ha hb hc, inter_assoc ha hb hc⟩, ⟨union_self a, inter_self a⟩,
    ⟨union_univ a, union_empty a⟩, ⟨inter_empty a, inter_univ a⟩, inter_union ha hb hc⟩

/-- A union of a bare container with an instance of it, a union over the same container and a
class, and an instance of the instance. -/
theorem union_inter_laws_nested :
    let a : TypeSet := .anyOf [.base .list, .arged .list (.base .int)]
    let b : TypeSet := .anyOf [.base .string, .arged .list (.base .list)]
    let c : TypeSet := .anyOf [.arged .list (.arged .list (.base .int)), .cls ⟨3⟩]
    (Canonical a ∧ Canonical b ∧ Canonical c ∧ a ≠ .univ ∧ b ≠ .univ ∧ c ≠ .univ) ∧
    (a.inter b).inter c = a.inter (b.inter c) ∧
    a.inter (b.union c) = (a.inter b).union (a.inter c) ∧
    a.inter (b.union c) =
      .anyOf [.arged .list (.base .list), .arged .list (.arged .list (.base .int))] := by
  intro a b c
  have ha : Canonical a := by decide
  have hb : Canonical b := by decide
  have hc : Canonical c := by decide
  obtain ⟨-, -, ⟨-, hassoc⟩, -, -, -, hdistrib⟩ := union_inter_laws ha hb hc
  exact ⟨⟨ha, hb, hc, nofun, nofun, nofun⟩, hassoc, hdistrib nofun nofun nofun, by decide⟩

/-! ## Pools -/

/-- An operation under which canonical sets form a pool, and the set of the empty pool. -/
structure Pooling (op : TypeSet → TypeSet → TypeSet) (start : TypeSet) : Prop where
  canonical_start : Canonical start
  canonical : ∀ {a b}, Canonical a → Canonical b → Canonical (op a b)
  comm : ∀ {a b}, Canonical a → Canonical b → op a b = op b a
  assoc : ∀ {a b c}, Canonical a → Canonical b → Canonical c → op (op a b) c = op a (op b c)
  self : ∀ a, op a a = a
  start_op : ∀ a, op start a = a

theorem pooling_union : Pooling union .empty where
  canonical_start := canonical_empty
  canonical := canonical_union
  comm := union_comm
  assoc := union_assoc
  self := union_self
  start_op := empty_union

theorem pooling_inter : Pooling inter .univ where
  canonical_start := canonical_univ
  canonical := canonical_inter
  comm := inter_comm
  assoc := inter_assoc
  self := inter_self
  start_op := univ_inter

/-- Sets that are put together in some order and grouping; the same one may come repeatedly. -/
inductive Grouping where
  | nothing
  | single (types : TypeSet)
  | both (left right : Grouping)

namespace Grouping

/-- The sets that are put together. -/
def members : Grouping → List TypeSet
  | nothing => []
  | single types => [types]
  | both left right => left.members ++ right.members

/-- What they are put together to. -/
def value (op : TypeSet → TypeSet → TypeSet) (start : TypeSet) : Grouping → TypeSet
  | nothing => start
  | single types => types
  | both left right => op (left.value op start) (right.value op start)

end Grouping

namespace Pooling

variable {op : TypeSet → TypeSet → TypeSet} {start : TypeSet} (h : Pooling op start)

include h

theorem canonical_foldl (hc : Canonical c) (hxs : ∀ x ∈ xs, Canonical x) :
    Canonical (xs.foldl op c) := by
  induction xs generalizing c with
  | nil => exact hc
  | cons x xs ih =>
    obtain ⟨hx, hxs⟩ := List.forall_mem_cons.1 hxs
    exact ih (h.canonical hc hx) hxs

/-- What a pool begins with may as well come last. -/
theorem foldl_eq_op (hc : Canonical c) (hxs : ∀ x ∈ xs, Canonical x) :
    xs.foldl op c = op c (xs.foldl op start) := by
  induction xs generalizing c with
  | nil => rw [List.foldl_nil, List.foldl_nil, h.comm hc h.canonical_start, h.start_op]
  | cons x xs ih =>
    obtain ⟨hx, hxs⟩ := List.forall_mem_cons.1 hxs
    rw [List.foldl_cons, List.foldl_cons, h.start_op, ih (h.canonical hc hx) hxs, ih hx hxs,
      h.assoc hc hx (h.canonical_foldl h.canonical_start hxs)]

/-- A set that changes nothing at first changes nothing later. -/
theorem foldl_absorbs (hc : Canonical c) (hxs : ∀ x ∈ xs, Canonical x) (ha : Canonical a)
    (habsorbed : op c a = c) : op (xs.foldl op c) a = xs.foldl op c := by
  have hpool := h.canonical_foldl h.canonical_start hxs
  rw [h.foldl_eq_op hc hxs, h.assoc hc hpool ha, h.comm hpool ha, ← h.assoc hc ha hpool,
    habsorbed]

/-- What a pool has taken up changes it no more, whatever it takes up after that. -/
theorem foldl_op_absorbs (ha : Canonical a) (hb : Canonical b) (hxs : ∀ x ∈ xs, Canonical x) :
    op (xs.foldl op (op a b)) b = xs.foldl op (op a b) :=
  h.foldl_absorbs (h.canonical ha hb) hxs hb (by rw [h.assoc ha hb hb, h.self])

/-- What taking up a set has changed never becomes the same again. -/
theorem foldl_op_ne (ha : Canonical a) (hb : Canonical b) (hxs : ∀ x ∈ xs, Canonical x)
    (hne : op a b ≠ a) : xs.foldl op (op a b) ≠ a := by
  intro heq
  have habsorbed := h.foldl_op_absorbs ha hb hxs
  rw [heq] at habsorbed
  exact hne habsorbed

/-- A pool has taken up all its members. -/
theorem foldl_absorbs_mem (hc : Canonical c) (hxs : ∀ x ∈ xs, Canonical x) (hx : x ∈ xs) :
    op (xs.foldl op c) x = xs.foldl op c := by
  obtain ⟨before, after, rfl⟩ := List.append_of_mem hx
  obtain ⟨hbefore, hx, hafter⟩ : (∀ y ∈ before, Canonical y) ∧ Canonical x ∧
      ∀ y ∈ after, Canonical y := by simpa [or_imp, forall_and] using hxs
  rw [List.foldl_append, List.foldl_cons]
  exact h.foldl_op_absorbs (h.canonical_foldl hc hbefore) hx hafter

/-- A pool takes up nothing from another one whose members it has taken up. -/
theorem op_foldl_of_absorbed (ha : Canonical a) (hc : Canonical c) (hxs : ∀ x ∈ xs, Canonical x)
    (hac : op a c = a) (habsorbed : ∀ x ∈ xs, op a x = a) : op a (xs.foldl op c) = a := by
  induction xs generalizing c with
  | nil => exact hac
  | cons x xs ih =>
    obtain ⟨hx, hxs⟩ := List.forall_mem_cons.1 hxs
    obtain ⟨hax, habsorbed⟩ := List.forall_mem_cons.1 habsorbed
    exact ih (h.canonical hc hx) hxs (by rw [← h.assoc ha hc hx, hac, hax]) habsorbed

/-- Pools over one set are equal if each has the members of the other, apart from such as change
nothing. -/
theorem foldl_eq_of_absorbed (hc : Canonical c) (hxs : ∀ x ∈ xs, Canonical x)
    (hys : ∀ y ∈ ys, Canonical y) (hxy : ∀ x ∈ xs, x ∈ ys ∨ op c x = c)
    (hyx : ∀ y ∈ ys, y ∈ xs ∨ op c y = c) : xs.foldl op c = ys.foldl op c := by
  have habsorbed : ∀ {xs ys : List TypeSet}, (∀ x ∈ xs, Canonical x) → (∀ y ∈ ys, Canonical y) →
      (∀ y ∈ ys, y ∈ xs ∨ op c y = c) → op (xs.foldl op c) (ys.foldl op c) = xs.foldl op c := by
    intro xs ys hxs hys hyx
    refine h.op_foldl_of_absorbed (h.canonical_foldl hc hxs) hc hys
      (h.foldl_absorbs hc hxs hc (h.self c)) fun y hy => ?_
    rcases hyx y hy with hmem | hsame
    · exact h.foldl_absorbs_mem hc hxs hmem
    · exact h.foldl_absorbs hc hxs (hys y hy) hsame
  rw [← habsorbed hxs hys hyx, h.comm (h.canonical_foldl hc hxs) (h.canonical_foldl hc hys),
    habsorbed hys hxs hxy]

/-- Pools with the same members are equal. -/
theorem foldl_eq_of_mem_iff (hc : Canonical c) (hxs : ∀ x ∈ xs, Canonical x)
    (hxy : ∀ x, x ∈ xs ↔ x ∈ ys) : xs.foldl op c = ys.foldl op c :=
  h.foldl_eq_of_absorbed hc hxs (fun y hy => hxs y ((hxy y).2 hy))
    (fun x hx => Or.inl ((hxy x).1 hx)) fun y hy => Or.inl ((hxy y).2 hy)

theorem value_eq_foldl_members {g : Grouping} (hg : ∀ x ∈ g.members, Canonical x) :
    g.value op start = g.members.foldl op start := by
  induction g with
  | nothing => rfl
  | single types => exact (h.start_op types).symm
  | both left right ihl ihr =>
    obtain ⟨hl, hr⟩ := List.forall_mem_append.1 hg
    rw [Grouping.value, Grouping.members, List.foldl_append,
      h.foldl_eq_op (h.canonical_foldl h.canonical_start hl) hr, ihl hl, ihr hr]

/-- Neither order nor grouping nor repetition matters to what sets are put together to. -/
theorem value_eq_foldl {g : Grouping} (hxs : ∀ x ∈ xs, Canonical x)
    (hg : ∀ x, x ∈ g.members ↔ x ∈ xs) : g.value op start = xs.foldl op start := by
  have hmembers : ∀ x ∈ g.members, Canonical x := fun x hx => hxs x ((hg x).1 hx)
  rw [h.value_eq_foldl_members hmembers]
  exact h.foldl_eq_of_mem_iff h.canonical_start hmembers hg

end Pooling

end TypeSet

end TypeFlow
