import TypeFlow.Proofs.Bounds.Update
import TypeFlow.Proofs.TypeSet.Laws
/-!
# Updates in closed form

After an update a slot shows what it showed before and the sets of the entries for it, and permits
what it permitted and they do (`get_result`). `Request.perform` does what is asked for without a
test, and `Update.unfiltered` has an entry for every request on a node with a slot. The entries
that an update does not take up change nothing in the table at hand, so that they change nothing in
the pool either: an update that takes up requests does what performing them one by one does
(`result_ofRequests`), and it is empty exactly if that is nothing (`nonempty?_eq_none_iff`).
-/

namespace TypeFlow

/-- Do what is asked for, whether or not that changes anything. Nothing is done for a node without
a slot. -/
def Request.perform (t : BoundsTable) : Request → BoundsTable
  | .widen n types => (t.slot? n).elim t fun s => t.widenTo s types
  | .narrow n types => (t.slot? n).elim t fun s => t.narrowTo s types

namespace Update

variable {t t' : BoundsTable} {u : Update} {s : Slot} {x : TypeSet} {r : Request}
  {v : Update} {entries : List (Slot × TypeSet)} {requests : List Request} {size : Nat}

/-- The entries of one update and then those of another. -/
def append (u v : Update) : Update := ⟨u.widen ++ v.widen, u.narrow ++ v.narrow⟩

theorem ask_eq_append (t : BoundsTable) (u : Update) (r : Request) :
    u.ask t r = u.append (ofRequests t [r]) := by
  rw [ofRequests, List.foldl_cons, List.foldl_nil, ask_eq, ask_eq]
  simp [append, empty]

theorem Fits.append (hu : u.Fits size) (hv : v.Fits size) : (u.append v).Fits size where
  widen := List.forall_mem_append.2 ⟨hu.widen, hv.widen⟩
  narrow := List.forall_mem_append.2 ⟨hu.narrow, hv.narrow⟩

/-! ## The entries of one slot -/

/-- The sets of the entries for a slot, in order. -/
def setsAt (s : Slot) (entries : List (Slot × TypeSet)) : List TypeSet :=
  entries.filterMap fun e => if e.1 = s then some e.2 else none

theorem mem_setsAt : x ∈ setsAt s entries ↔ (s, x) ∈ entries := by
  simp only [setsAt, List.mem_filterMap, Option.ite_none_right_eq_some, Option.some.injEq]
  constructor
  · rintro ⟨e, he, rfl, rfl⟩
    exact he
  · exact fun h => ⟨_, h, rfl, rfl⟩

theorem setsAt_append (s : Slot) (entries others : List (Slot × TypeSet)) :
    setsAt s (entries ++ others) = setsAt s entries ++ setsAt s others :=
  List.filterMap_append

theorem setsAt_cons (s : Slot) (e : Slot × TypeSet) (entries : List (Slot × TypeSet)) :
    setsAt s (e :: entries) = if e.1 = s then e.2 :: setsAt s entries else setsAt s entries := by
  unfold setsAt
  split <;> simp_all

theorem Fits.canonical_widen (hu : u.Fits size) : ∀ x ∈ setsAt s u.widen, x.Canonical :=
  fun _ hx => (hu.widen _ (mem_setsAt.1 hx)).2

theorem Fits.canonical_narrow (hu : u.Fits size) : ∀ x ∈ setsAt s u.narrow, x.Canonical :=
  fun _ hx => (hu.narrow _ (mem_setsAt.1 hx)).2

theorem get_foldl_widenTo : ∀ {entries : List (Slot × TypeSet)} {t : BoundsTable},
    (∀ e ∈ entries, e.1.index < t.size) →
    (entries.foldl (fun t e => t.widenTo e.1 e.2) t).get s =
      ⟨(setsAt s entries).foldl .union (t.get s).shown, (t.get s).permitted⟩
  | [], _, _ => rfl
  | e :: entries, t, h => by
    obtain ⟨he, h⟩ := List.forall_mem_cons.1 h
    rw [List.foldl_cons, get_foldl_widenTo (by simpa using h), BoundsTable.get_widenTo he,
      setsAt_cons]
    by_cases hs : s = e.1
    · simp [hs]
    · simp [hs, Ne.symm hs]

theorem get_foldl_narrowTo : ∀ {entries : List (Slot × TypeSet)} {t : BoundsTable},
    (∀ e ∈ entries, e.1.index < t.size) →
    (entries.foldl (fun t e => t.narrowTo e.1 e.2) t).get s =
      ⟨(t.get s).shown, (setsAt s entries).foldl .inter (t.get s).permitted⟩
  | [], _, _ => rfl
  | e :: entries, t, h => by
    obtain ⟨he, h⟩ := List.forall_mem_cons.1 h
    rw [List.foldl_cons, get_foldl_narrowTo (by simpa using h), BoundsTable.get_narrowTo he,
      setsAt_cons]
    by_cases hs : s = e.1
    · simp [hs]
    · simp [hs, Ne.symm hs]

theorem size_foldl_widenTo (entries : List (Slot × TypeSet)) (t : BoundsTable) :
    (entries.foldl (fun t e => t.widenTo e.1 e.2) t).size = t.size := by
  induction entries generalizing t with
  | nil => rfl
  | cons e entries ih => rw [List.foldl_cons, ih, BoundsTable.size_widenTo]

/-- What an update makes of the bounds in a slot. -/
theorem get_result (hu : u.Fits t.size) : (u.result t).get s =
    ⟨(setsAt s u.widen).foldl .union (t.get s).shown,
      (setsAt s u.narrow).foldl .inter (t.get s).permitted⟩ := by
  rw [result, get_foldl_narrowTo, get_foldl_widenTo fun e he => (hu.widen e he).1]
  rw [size_foldl_widenTo]
  exact fun e he => (hu.narrow e he).1

@[simp] theorem binding_result (u : Update) (t : BoundsTable) : (u.result t).binding = t.binding :=
  result_induction (I := fun t' => t'.binding = t.binding) (fun _ _ _ _ h => h)
    (fun _ _ _ _ h => h) rfl

/-! ## Requests without a filter -/

/-- The entry for a request on a node with a slot. -/
def wanted (slot? : NodeId → Option Slot) : Request → Update
  | .widen n types => ⟨((slot? n).map (·, types)).toList, []⟩
  | .narrow n types => ⟨[], ((slot? n).map (·, types)).toList⟩

/-- The entries for all requests on nodes with slots, in order. -/
def unfiltered (slot? : NodeId → Option Slot) (requests : List Request) : Update :=
  ⟨requests.flatMap fun r => (wanted slot? r).widen,
    requests.flatMap fun r => (wanted slot? r).narrow⟩

section Unfiltered

variable {slot? : NodeId → Option Slot}

theorem mem_widen_wanted :
    (s, x) ∈ (wanted slot? r).widen ↔ ∃ n, r = .widen n x ∧ slot? n = some s := by
  cases r with
  | widen n types =>
    simp only [wanted, Option.mem_toList, Option.map_eq_some_iff, Prod.mk.injEq,
      Request.widen.injEq]
    constructor
    · rintro ⟨_, hs, rfl, rfl⟩
      exact ⟨n, ⟨rfl, rfl⟩, hs⟩
    · rintro ⟨_, ⟨rfl, rfl⟩, hs⟩
      exact ⟨s, hs, rfl, rfl⟩
  | narrow n types => simp [wanted]

theorem mem_narrow_wanted :
    (s, x) ∈ (wanted slot? r).narrow ↔ ∃ n, r = .narrow n x ∧ slot? n = some s := by
  cases r with
  | widen n types => simp [wanted]
  | narrow n types =>
    simp only [wanted, Option.mem_toList, Option.map_eq_some_iff, Prod.mk.injEq,
      Request.narrow.injEq]
    constructor
    · rintro ⟨_, hs, rfl, rfl⟩
      exact ⟨n, ⟨rfl, rfl⟩, hs⟩
    · rintro ⟨_, ⟨rfl, rfl⟩, hs⟩
      exact ⟨s, hs, rfl, rfl⟩

theorem mem_widen_unfiltered : (s, x) ∈ (unfiltered slot? requests).widen ↔
    ∃ n, .widen n x ∈ requests ∧ slot? n = some s := by
  simp only [unfiltered, List.mem_flatMap, mem_widen_wanted]
  exact ⟨fun ⟨_, hr, n, h, hs⟩ => ⟨n, h ▸ hr, hs⟩, fun ⟨n, hr, hs⟩ => ⟨_, hr, n, rfl, hs⟩⟩

theorem mem_narrow_unfiltered : (s, x) ∈ (unfiltered slot? requests).narrow ↔
    ∃ n, .narrow n x ∈ requests ∧ slot? n = some s := by
  simp only [unfiltered, List.mem_flatMap, mem_narrow_wanted]
  exact ⟨fun ⟨_, hr, n, h, hs⟩ => ⟨n, h ▸ hr, hs⟩, fun ⟨n, hr, hs⟩ => ⟨_, hr, n, rfl, hs⟩⟩

end Unfiltered

theorem fits_unfiltered {slot? : NodeId → Option Slot}
    (hmade : ∀ n s, slot? n = some s → s.index < size) (hr : ∀ r ∈ requests, r.Canonical) :
    (unfiltered slot? requests).Fits size where
  widen := by
    rintro ⟨s, x⟩ he
    obtain ⟨n, hmem, hs⟩ := mem_widen_unfiltered.1 he
    exact ⟨hmade n s hs, hr _ hmem⟩
  narrow := by
    rintro ⟨s, x⟩ he
    obtain ⟨n, hmem, hs⟩ := mem_narrow_unfiltered.1 he
    exact ⟨hmade n s hs, hr _ hmem⟩

theorem perform_eq_result (t : BoundsTable) (r : Request) :
    r.perform t = (unfiltered t.slot? [r]).result t := by
  cases r with
  | widen n types => cases h : t.slot? n <;> simp [Request.perform, unfiltered, wanted, result, h]
  | narrow n types => cases h : t.slot? n <;> simp [Request.perform, unfiltered, wanted, result, h]

/-- Requests that are performed one by one leave in a slot what all their entries together do. -/
theorem get_foldl_perform (ht : t.Sound) (hr : ∀ r ∈ requests, r.Canonical) :
    (requests.foldl Request.perform t).size = t.size ∧
    (requests.foldl Request.perform t).binding = t.binding ∧
    ∀ s, (requests.foldl Request.perform t).get s =
      ⟨(setsAt s (unfiltered t.slot? requests).widen).foldl .union (t.get s).shown,
        (setsAt s (unfiltered t.slot? requests).narrow).foldl .inter (t.get s).permitted⟩ := by
  induction requests generalizing t with
  | nil => exact ⟨rfl, rfl, fun _ => rfl⟩
  | cons r rs ih =>
    have hfits : (unfiltered t.slot? [r]).Fits t.size :=
      fits_unfiltered ht.made fun q hq => hr q (by simpa using Or.inl (List.mem_singleton.1 hq))
    obtain ⟨-, hsound, hsize⟩ := run_apply ht hfits
    rw [List.foldl_cons, perform_eq_result]
    obtain ⟨hsize', hbinding, hget⟩ := ih hsound fun q hq => hr q (List.mem_cons_of_mem r hq)
    refine ⟨hsize'.trans hsize, hbinding.trans (binding_result _ t), fun s => ?_⟩
    have hslot : ((unfiltered t.slot? [r]).result t).slot? = t.slot? :=
      funext fun n => slot?_result _ t n
    rw [hget s, get_result hfits, hslot]
    simp [unfiltered, setsAt_append]

/-! ## What the filter leaves out -/

/-- The first update leaves out of the second only what changes nothing in a table. -/
structure Abridges (t : BoundsTable) (u v : Update) : Prop where
  widen_subset : ∀ e ∈ u.widen, e ∈ v.widen
  narrow_subset : ∀ e ∈ u.narrow, e ∈ v.narrow
  widen : ∀ e ∈ v.widen, e ∈ u.widen ∨ (t.get e.1).shown.union e.2 = (t.get e.1).shown
  narrow : ∀ e ∈ v.narrow, e ∈ u.narrow ∨ (t.get e.1).permitted.inter e.2 = (t.get e.1).permitted

theorem Abridges.refl (t : BoundsTable) (u : Update) : Abridges t u u :=
  ⟨fun _ h => h, fun _ h => h, fun _ h => Or.inl h, fun _ h => Or.inl h⟩

theorem Abridges.append {u' v' : Update} (h : Abridges t u v) (h' : Abridges t u' v') :
    Abridges t (u.append u') (v.append v') where
  widen_subset e he := List.mem_append.2
    ((List.mem_append.1 he).imp (h.widen_subset e) (h'.widen_subset e))
  narrow_subset e he := List.mem_append.2
    ((List.mem_append.1 he).imp (h.narrow_subset e) (h'.narrow_subset e))
  widen e he := (List.mem_append.1 he).elim
    (fun he => (h.widen e he).imp_left (List.mem_append_left _))
    fun he => (h'.widen e he).imp_left (List.mem_append_right _)
  narrow e he := (List.mem_append.1 he).elim
    (fun he => (h.narrow e he).imp_left (List.mem_append_left _))
    fun he => (h'.narrow e he).imp_left (List.mem_append_right _)

/-- The requests that are not taken up change nothing in the table at hand. -/
theorem abridges_ofRequests (ht : t.Sound) (hr : ∀ r ∈ requests, r.Canonical) :
    Abridges t (ofRequests t requests) (unfiltered t.slot? requests) where
  widen_subset := by
    rintro ⟨s, x⟩ he
    obtain ⟨n, hmem, hs, -⟩ := mem_widen_ofRequests.1 he
    exact mem_widen_unfiltered.2 ⟨n, hmem, hs⟩
  narrow_subset := by
    rintro ⟨s, x⟩ he
    obtain ⟨n, hmem, hs, -⟩ := mem_narrow_ofRequests.1 he
    exact mem_narrow_unfiltered.2 ⟨n, hmem, hs⟩
  widen := by
    rintro ⟨s, x⟩ he
    obtain ⟨n, hmem, hs⟩ := mem_widen_unfiltered.1 he
    cases hc : (t.get s).shown.unionChanges x with
    | true => exact Or.inl (mem_widen_ofRequests.2 ⟨n, hmem, hs, hc⟩)
    | false => exact Or.inr (TypeSet.union_eq_left (ht.canonical s).1 (hr _ hmem) hc)
  narrow := by
    rintro ⟨s, x⟩ he
    obtain ⟨n, hmem, hs⟩ := mem_narrow_unfiltered.1 he
    cases hc : (t.get s).permitted.interChanges x with
    | true => exact Or.inl (mem_narrow_ofRequests.2 ⟨n, hmem, hs, hc⟩)
    | false => exact Or.inr (TypeSet.interChanges_eq_false.1 hc)

theorem Abridges.fits (h : Abridges t u v) (hv : v.Fits size) : u.Fits size :=
  ⟨fun e he => hv.widen e (h.widen_subset e he), fun e he => hv.narrow e (h.narrow_subset e he)⟩

/-- An update does the same as what it leaves something out of. -/
theorem Abridges.get_result (h : Abridges t u v) (ht : t.Sound) (hv : v.Fits t.size) (s : Slot) :
    (u.result t).get s = ⟨(setsAt s v.widen).foldl .union (t.get s).shown,
      (setsAt s v.narrow).foldl .inter (t.get s).permitted⟩ := by
  have hu := h.fits hv
  rw [Update.get_result hu]
  congr 1
  · refine TypeSet.pooling_union.foldl_eq_of_absorbed (ht.canonical s).1 hu.canonical_widen
      hv.canonical_widen (fun x hx => Or.inl ?_) fun x hx => ?_
    · exact mem_setsAt.2 (h.widen_subset _ (mem_setsAt.1 hx))
    · exact (h.widen _ (mem_setsAt.1 hx)).imp_left mem_setsAt.2
  · refine TypeSet.pooling_inter.foldl_eq_of_absorbed (ht.canonical s).2 hu.canonical_narrow
      hv.canonical_narrow (fun x hx => Or.inl ?_) fun x hx => ?_
    · exact mem_setsAt.2 (h.narrow_subset _ (mem_setsAt.1 hx))
    · exact (h.narrow _ (mem_setsAt.1 hx)).imp_left mem_setsAt.2

/-- Taking requests up in one update does what performing them one by one does. -/
theorem result_ofRequests (ht : t.Sound) (hr : ∀ r ∈ requests, r.Canonical) :
    (ofRequests t requests).result t = requests.foldl Request.perform t := by
  obtain ⟨hsize, hbinding, hget⟩ := get_foldl_perform ht hr
  have hfits := fits_ofRequests ht hr
  refine BoundsTable.ext_get ((binding_result _ t).trans hbinding.symm)
    ((run_apply ht hfits).2.2.trans hsize.symm) fun s => ?_
  rw [(abridges_ofRequests ht hr).get_result ht (fits_unfiltered ht.made hr), hget s]

/-- A request that changes something is absorbed by the result, which is not the table at hand. -/
theorem result_ofRequests_ne (ht : t.Sound) (hr : ∀ r ∈ requests, r.Canonical)
    (hmem : r ∈ requests) (hchanges : r.changes t) : (ofRequests t requests).result t ≠ t := by
  intro h
  have hfits := fits_ofRequests ht hr
  have hsame := fun s => get_result (s := s) hfits
  rw [h] at hsame
  cases r with
  | widen n x =>
    obtain ⟨s, hs, hc⟩ : ∃ s, t.slot? n = some s ∧ (t.get s).shown.unionChanges x = true := by
      simpa [Request.changes, Option.any_eq_true] using hchanges
    have hx : x ∈ setsAt s (ofRequests t requests).widen :=
      mem_setsAt.2 (mem_widen_ofRequests.2 ⟨n, hmem, hs, hc⟩)
    have habsorbs := TypeSet.pooling_union.foldl_absorbs_mem (ht.canonical s).1
      (fun y hy => (hfits.widen _ (mem_setsAt.1 hy)).2) hx
    have hshown : (setsAt s (ofRequests t requests).widen).foldl .union (t.get s).shown =
      (t.get s).shown := (congrArg Bounds.shown (hsame s)).symm
    rw [hshown] at habsorbs
    have hx : x.Canonical := hr _ hmem
    rw [TypeSet.unionChanges_of_union_eq (ht.canonical s).1 hx habsorbs] at hc
    cases hc
  | narrow n x =>
    obtain ⟨s, hs, hc⟩ : ∃ s, t.slot? n = some s ∧
        (t.get s).permitted.interChanges x = true := by
      simpa [Request.changes, Option.any_eq_true] using hchanges
    have hx : x ∈ setsAt s (ofRequests t requests).narrow :=
      mem_setsAt.2 (mem_narrow_ofRequests.2 ⟨n, hmem, hs, hc⟩)
    have habsorbs := TypeSet.pooling_inter.foldl_absorbs_mem (ht.canonical s).2
      (fun y hy => (hfits.narrow _ (mem_setsAt.1 hy)).2) hx
    have hpermitted : (setsAt s (ofRequests t requests).narrow).foldl .inter (t.get s).permitted =
      (t.get s).permitted := (congrArg Bounds.permitted (hsame s)).symm
    rw [hpermitted] at habsorbs
    rw [TypeSet.interChanges_eq_false.2 habsorbs] at hc
    cases hc

theorem eq_empty_of_nonempty? (h : u.nonempty? = none) : u = empty := by
  unfold nonempty? at h
  split at h
  · next hempty =>
    obtain ⟨hw, hn⟩ := (Bool.and_eq_true _ _).mp hempty
    cases u
    simp_all [empty]
  · cases h

/-- An update has nothing in it exactly if its requests do nothing. -/
theorem nonempty?_eq_none_iff (ht : t.Sound) (hr : ∀ r ∈ requests, r.Canonical) :
    (ofRequests t requests).nonempty? = none ↔ requests.foldl Request.perform t = t := by
  rw [← result_ofRequests ht hr]
  constructor
  · intro h
    rw [eq_empty_of_nonempty? h]
    rfl
  · intro h
    refine nonempty?_ofRequests_eq_none.2 fun r hmem => ?_
    by_contra hchanges
    exact result_ofRequests_ne ht hr hmem (by simpa using hchanges) h

/-! ## Counting changes -/

/-- Changes that count for nothing do nothing. -/
theorem eq_of_applyEach_zero {change : Slot → TypeSet → Run BoundsTable Bool}
    (hchange : ∀ {s x t t'}, (change s x).run t = (.ok false, t') → t' = t) :
    ∀ {entries : List (Slot × TypeSet)} {t t' : BoundsTable},
      (applyEach change entries).run t = (.ok 0, t') → t' = t
  | [], _, _, h => (Run.outcome_eq.1 h).2.symm
  | e :: entries, t, t', h => by
    rw [applyEach] at h
    obtain ⟨changed, mid, hhead, h⟩ := Run.run_bind_eq_ok.1 h
    obtain ⟨more, last, hrest, h⟩ := Run.run_bind_eq_ok.1 h
    obtain ⟨hcount, rfl⟩ := Run.outcome_eq.1 h
    have hcount : more + changed.toNat = 0 := Except.ok.inj hcount
    obtain ⟨rfl, hfalse⟩ := Nat.add_eq_zero_iff.1 hcount
    obtain rfl : changed = false := by simpa using hfalse
    rw [eq_of_applyEach_zero hchange hrest, hchange hhead]

theorem eq_of_apply_zero (h : u.apply.run t = (.ok 0, t')) : t' = t := by
  rw [apply] at h
  obtain ⟨widened, mid, hw, h⟩ := Run.run_bind_eq_ok.1 h
  obtain ⟨narrowed, last, hn, h⟩ := Run.run_bind_eq_ok.1 h
  obtain ⟨hcount, rfl⟩ := Run.outcome_eq.1 h
  have hcount : widened + narrowed = 0 := Except.ok.inj hcount
  obtain ⟨rfl, rfl⟩ := Nat.add_eq_zero_iff.1 hcount
  rw [eq_of_applyEach_zero BoundsTable.eq_of_narrow_false hn,
    eq_of_applyEach_zero BoundsTable.eq_of_widen_false hw]

end Update

end TypeFlow
