import TypeFlow.Bounds
import TypeFlow.Proofs.Run
import TypeFlow.Proofs.TypeSet.Within
/-!
# Tables of canonical bounds

A table is sound if all its sets are canonical and nodes are bound to slots that were made. On a
sound table widening and narrowing by canonical sets do not fail: they are `widenTo` and
`narrowTo`, which take the union and the intersection whether or not that changes anything
(`run_widen`, `run_narrow`), and the table stays sound.
-/

namespace TypeFlow

/-- Both sets are canonical. -/
def Bounds.Canonical (b : Bounds) : Prop := b.shown.Canonical ∧ b.permitted.Canonical

theorem Bounds.canonical_initial : Bounds.initial.Canonical :=
  ⟨TypeSet.canonical_empty, TypeSet.canonical_univ⟩

namespace BoundsTable

variable {t : BoundsTable} {s s' : Slot} {n : NodeId} {types : TypeSet} {b : Bounds}

/-- All sets are canonical, and nodes are bound to slots that were made. -/
structure Sound (t : BoundsTable) : Prop where
  canonical : ∀ s, (t.get s).Canonical
  made : ∀ n s, t.slot? n = some s → s.index < t.size

/-! ## Slots -/

/-- Tables are equal if they bind nodes alike and have equally many slots with the same bounds. -/
theorem ext_get {u : BoundsTable} (hbinding : t.binding = u.binding) (hsize : t.size = u.size)
    (hget : ∀ s, t.get s = u.get s) : t = u := by
  cases t with | mk slots binding
  cases u with | mk slots' binding'
  obtain rfl : binding = binding' := hbinding
  simp only [mk.injEq, and_true]
  refine Array.ext hsize fun i h h' => ?_
  have hi := hget ⟨i⟩
  simpa [get, Array.getD, h, h'] using hi

/-- A slot reads as initial before it is made and when it is. -/
@[simp] theorem get_fresh : (t.fresh n).get s = t.get s := by
  simp only [get, fresh, Array.getD_eq_getD_getElem?, Array.getElem?_push]
  split
  · next h => simp [h]
  · rfl

@[simp] theorem size_fresh : (t.fresh n).size = t.size + 1 := by simp [fresh, size]

theorem slot?_fresh {m : NodeId} :
    (t.fresh n).slot? m = if m = n then some t.nextSlot else t.slot? m := by
  simp only [slot?, fresh, List.lookup_cons]
  by_cases h : m = n
  · simp [h]
  · simp [h, beq_false_of_ne h]

@[simp] theorem get_share : (t.share n s').get s = t.get s := rfl

@[simp] theorem size_share : (t.share n s).size = t.size := rfl

theorem slot?_share {m : NodeId} :
    (t.share n s).slot? m = if m = n then some s else t.slot? m := by
  simp only [slot?, share, List.lookup_cons]
  by_cases h : m = n
  · simp [h]
  · simp [h, beq_false_of_ne h]

theorem Sound.fresh (ht : t.Sound) (n : NodeId) : (t.fresh n).Sound where
  canonical s := by
    rw [get_fresh]
    exact ht.canonical s
  made m s h := by
    rw [slot?_fresh] at h
    rw [size_fresh]
    split at h
    · obtain rfl := Option.some.inj h
      exact Nat.lt_succ_self _
    · exact Nat.lt_succ_of_lt (ht.made m s h)

theorem Sound.share (ht : t.Sound) (hs : s.index < t.size) (n : NodeId) : (t.share n s).Sound where
  canonical := ht.canonical
  made m s' h := by
    rw [slot?_share] at h
    split at h
    · obtain rfl := Option.some.inj h
      exact hs
    · exact ht.made m s' h

@[simp] theorem get_empty (s : Slot) : empty.get s = .initial := by simp [get, empty]

theorem sound_empty : empty.Sound where
  canonical s := by
    rw [get_empty]
    exact Bounds.canonical_initial
  made n s h := by simp [slot?, empty] at h

@[simp] theorem size_set : (t.set s b).size = t.size := by simp [set, size]

@[simp] theorem slot?_set : (t.set s b).slot? n = t.slot? n := rfl

theorem get_set (hs : s.index < t.size) :
    (t.set s b).get s' = if s' = s then b else t.get s' := by
  cases s with | mk i
  cases s' with | mk j
  simp only [set, get, Slot.mk.injEq, Array.getD_eq_getD_getElem?, Array.getElem?_setIfInBounds]
  by_cases h : i = j
  · subst h
    have : i < t.slots.size := hs
    simp [this]
  · simp [h, Ne.symm h]

@[simp] theorem set_get (t : BoundsTable) (s : Slot) : t.set s (t.get s) = t := by
  cases t with | mk slots binding
  simp only [set, get, mk.injEq, and_true]
  refine Array.ext (by simp) fun i h h' => ?_
  rw [Array.getElem_setIfInBounds h']
  split
  · next hi => simp [hi, Array.getD, h']
  · rfl

theorem of?_eq (t : BoundsTable) (n : NodeId) : t.of? n = (t.slot? n).map t.get := rfl

theorem shown_of_slot? (h : t.slot? n = some s) : t.shown n = (t.get s).shown := by
  simp [shown, of?, h]

theorem permitted_of_slot? (h : t.slot? n = some s) : t.permitted n = (t.get s).permitted := by
  simp [permitted, of?, h]

theorem shown_of_unbound (h : t.slot? n = none) : t.shown n = .empty := by
  simp [shown, of?, h, Bounds.initial]

theorem permitted_of_unbound (h : t.slot? n = none) : t.permitted n = .univ := by
  simp [permitted, of?, h, Bounds.initial]

theorem Sound.canonical_shown (ht : t.Sound) (n : NodeId) : (t.shown n).Canonical := by
  cases h : t.slot? n with
  | none =>
    rw [shown_of_unbound h]
    exact TypeSet.canonical_empty
  | some s =>
    rw [shown_of_slot? h]
    exact (ht.canonical s).1

theorem Sound.canonical_permitted (ht : t.Sound) (n : NodeId) : (t.permitted n).Canonical := by
  cases h : t.slot? n with
  | none =>
    rw [permitted_of_unbound h]
    exact TypeSet.canonical_univ
  | some s =>
    rw [permitted_of_slot? h]
    exact (ht.canonical s).2

/-! ## Widening and narrowing -/

/-- The table with the union of a set and what a slot shows. -/
def widenTo (t : BoundsTable) (s : Slot) (types : TypeSet) : BoundsTable :=
  t.set s { t.get s with shown := (t.get s).shown.union types }

/-- The table with the intersection of a set and what a slot permits. -/
def narrowTo (t : BoundsTable) (s : Slot) (types : TypeSet) : BoundsTable :=
  t.set s { t.get s with permitted := (t.get s).permitted.inter types }

@[simp] theorem size_widenTo : (t.widenTo s types).size = t.size := size_set

@[simp] theorem slot?_widenTo : (t.widenTo s types).slot? n = t.slot? n := rfl

@[simp] theorem size_narrowTo : (t.narrowTo s types).size = t.size := size_set

@[simp] theorem slot?_narrowTo : (t.narrowTo s types).slot? n = t.slot? n := rfl

theorem get_widenTo (hs : s.index < t.size) : (t.widenTo s types).get s' =
    if s' = s then ⟨(t.get s).shown.union types, (t.get s).permitted⟩ else t.get s' :=
  get_set hs

theorem get_narrowTo (hs : s.index < t.size) : (t.narrowTo s types).get s' =
    if s' = s then ⟨(t.get s).shown, (t.get s).permitted.inter types⟩ else t.get s' :=
  get_set hs

theorem Sound.widenTo (ht : t.Sound) (hs : s.index < t.size) (htypes : types.Canonical) :
    (t.widenTo s types).Sound where
  canonical s' := by
    rw [get_widenTo hs]
    split
    · exact ⟨TypeSet.canonical_union (ht.canonical s).1 htypes, (ht.canonical s).2⟩
    · exact ht.canonical s'
  made n s' h := by simpa using ht.made n s' h

theorem Sound.narrowTo (ht : t.Sound) (hs : s.index < t.size) (htypes : types.Canonical) :
    (t.narrowTo s types).Sound where
  canonical s' := by
    rw [get_narrowTo hs]
    split
    · exact ⟨(ht.canonical s).1, TypeSet.canonical_inter (ht.canonical s).2 htypes⟩
    · exact ht.canonical s'
  made n s' h := by simpa using ht.made n s' h

/-- A union that changes nothing leaves the table as it is. -/
theorem widenTo_eq_self (ht : t.Sound) (htypes : types.Canonical)
    (h : (t.get s).shown.unionChanges types = false) : t.widenTo s types = t := by
  rw [BoundsTable.widenTo, TypeSet.union_eq_left (ht.canonical s).1 htypes h]
  exact set_get t s

/-- An intersection that changes nothing leaves the table as it is. -/
theorem narrowTo_eq_self (h : (t.get s).permitted.interChanges types = false) :
    t.narrowTo s types = t := by
  rw [BoundsTable.narrowTo, TypeSet.interChanges_eq_false.1 h]
  exact set_get t s

theorem run_widen (ht : t.Sound) (htypes : types.Canonical) :
    (widen s types).run t = (.ok ((t.get s).shown.unionChanges types), t.widenTo s types) := by
  have hshown := (ht.canonical s).1
  have hunion : (t.get s).shown.union? types = .ok ((t.get s).shown.union types) := by
    simp [TypeSet.union?, TypeSet.checked, hshown.check, htypes.check]
  rw [widen, Run.run_bind_of_ok (Run.run_get)]
  cases hc : (t.get s).shown.unionChanges types with
  | true =>
    simp only [hc, hunion, if_true]
    rfl
  | false =>
    simp only [widenTo_eq_self ht htypes hc, hc, Bool.false_eq_true, if_false]
    rfl

theorem run_narrow (ht : t.Sound) (htypes : types.Canonical) :
    (narrow s types).run t =
      (.ok ((t.get s).permitted.interChanges types), t.narrowTo s types) := by
  have hpermitted := (ht.canonical s).2
  have hinter : (t.get s).permitted.inter? types = .ok ((t.get s).permitted.inter types) := by
    simp [TypeSet.inter?, TypeSet.checked, hpermitted.check, htypes.check]
  rw [narrow, Run.run_bind_of_ok (Run.run_get)]
  cases hc : (t.get s).permitted.interChanges types with
  | true =>
    simp only [hc, hinter, if_true]
    rfl
  | false =>
    simp only [narrowTo_eq_self hc, hc, Bool.false_eq_true, if_false]
    rfl

/-- A widening that tells of no change makes none. -/
theorem eq_of_widen_false {t' : BoundsTable} (h : (widen s types).run t = (.ok false, t')) :
    t' = t := by
  rw [widen, Run.run_bind_of_ok Run.run_get] at h
  cases hc : (t.get s).shown.unionChanges types with
  | true =>
    cases hset : (t.get s).shown.union? types with
    | error cause =>
      simp only [hc, hset, if_true] at h
      cases (Run.outcome_eq.1 h).1
    | ok set =>
      simp only [hc, hset, if_true] at h
      cases (Run.outcome_eq.1 h).1
  | false =>
    simp only [hc, Bool.false_eq_true, if_false] at h
    exact (Run.outcome_eq.1 h).2.symm

/-- A narrowing that tells of no change makes none. -/
theorem eq_of_narrow_false {t' : BoundsTable} (h : (narrow s types).run t = (.ok false, t')) :
    t' = t := by
  rw [narrow, Run.run_bind_of_ok Run.run_get] at h
  cases hc : (t.get s).permitted.interChanges types with
  | true =>
    cases hset : (t.get s).permitted.inter? types with
    | error cause =>
      simp only [hc, hset, if_true] at h
      cases (Run.outcome_eq.1 h).1
    | ok set =>
      simp only [hc, hset, if_true] at h
      cases (Run.outcome_eq.1 h).1
  | false =>
    simp only [hc, Bool.false_eq_true, if_false] at h
    exact (Run.outcome_eq.1 h).2.symm

/-! ## Tables over a family of leaves -/

section Over

variable {P : TypeSet → Prop}

/-- All sets of a table lie over a family of leaves. -/
def Over (t : BoundsTable) (P : TypeSet → Prop) : Prop :=
  ∀ s, TypeSet.Over P (t.get s).shown ∧ TypeSet.Over P (t.get s).permitted

theorem Over.shown (ht : t.Over P) (n : NodeId) : TypeSet.Over P (t.shown n) := by
  cases h : t.slot? n with
  | none =>
    rw [shown_of_unbound h]
    exact TypeSet.over_empty
  | some s =>
    rw [shown_of_slot? h]
    exact (ht s).1

theorem Over.permitted (ht : t.Over P) (n : NodeId) : TypeSet.Over P (t.permitted n) := by
  cases h : t.slot? n with
  | none =>
    rw [permitted_of_unbound h]
    exact TypeSet.over_univ
  | some s =>
    rw [permitted_of_slot? h]
    exact (ht s).2

theorem Over.mono {Q : TypeSet → Prop} (h : ∀ x, P x → Q x) (ht : t.Over P) : t.Over Q :=
  fun s => ⟨(ht s).1.mono h, (ht s).2.mono h⟩

theorem Sound.over (ht : t.Sound) : t.Over fun _ => True := fun s =>
  ⟨⟨(ht.canonical s).1, fun _ _ _ => trivial⟩, ⟨(ht.canonical s).2, fun _ _ _ => trivial⟩⟩

theorem Over.widenTo (ht : t.Over P) (hs : s.index < t.size) (htypes : TypeSet.Over P types) :
    (t.widenTo s types).Over P := fun s' => by
  rw [get_widenTo hs]
  split
  · exact ⟨TypeSet.over_union (ht s).1 htypes, (ht s).2⟩
  · exact ht s'

theorem Over.narrowTo (ht : t.Over P) (hs : s.index < t.size) (htypes : TypeSet.Over P types) :
    (t.narrowTo s types).Over P := fun s' => by
  rw [get_narrowTo hs]
  split
  · exact ⟨(ht s).1, TypeSet.over_inter (ht s).2 htypes⟩
  · exact ht s'

end Over

end BoundsTable

end TypeFlow
