import TypeFlow.Proofs.Bounds.Update
/-!
# The order of tables

A table is `Under` another one if it shows no more of any node and permits no less. Updates only
climb (`under_result`), and after an update all that it was asked for holds (`met_result`). If a
table meets a list of requests (`Request.Met`), then a table under it stays under it when it takes
the requests up, as long as nodes that share bounds in the lower table share them in the upper one
(`Under.result`).
-/

namespace TypeFlow

namespace BoundsTable

variable {t T U : BoundsTable} {s : Slot} {n : NodeId} {types : TypeSet}

/-- No node shows more or permits less than in the second table. -/
structure Under (t T : BoundsTable) : Prop where
  shown : ∀ n, (t.shown n).Within (T.shown n)
  permitted : ∀ n, (T.permitted n).Within (t.permitted n)

theorem Under.refl (t : BoundsTable) : t.Under t :=
  ⟨fun _ => TypeSet.Within.refl _, fun _ => TypeSet.Within.refl _⟩

theorem Under.trans (h : t.Under T) (h' : T.Under U) : t.Under U :=
  ⟨fun n => (h.shown n).trans (h'.shown n), fun n => (h'.permitted n).trans (h.permitted n)⟩

/-- Nodes that share bounds in the first table have bounds in the second, and share them. -/
def Joins (t T : BoundsTable) : Prop :=
  ∀ n m, (t.slot? n).isSome → t.slot? n = t.slot? m → (T.slot? n).isSome ∧ T.slot? n = T.slot? m

/-! ## Single steps -/

section Step

variable (hs : s.index < t.size)

include hs

theorem shown_widenTo : (t.widenTo s types).shown n =
    if t.slot? n = some s then (t.shown n).union types else t.shown n := by
  cases h : t.slot? n with
  | none => rw [shown_of_unbound h, shown_of_unbound (slot?_widenTo.trans h), if_neg (by simp)]
  | some s' =>
    rw [shown_of_slot? h, shown_of_slot? (slot?_widenTo.trans h), get_widenTo hs]
    by_cases heq : s' = s
    · rw [if_pos heq, if_pos (congrArg some heq), heq]
    · rw [if_neg heq, if_neg fun h => heq (Option.some.inj h)]

theorem permitted_widenTo : (t.widenTo s types).permitted n = t.permitted n := by
  cases h : t.slot? n with
  | none => rw [permitted_of_unbound h, permitted_of_unbound (slot?_widenTo.trans h)]
  | some s' =>
    rw [permitted_of_slot? h, permitted_of_slot? (slot?_widenTo.trans h), get_widenTo hs]
    split
    · next heq => rw [heq]
    · rfl

theorem shown_narrowTo : (t.narrowTo s types).shown n = t.shown n := by
  cases h : t.slot? n with
  | none => rw [shown_of_unbound h, shown_of_unbound (slot?_narrowTo.trans h)]
  | some s' =>
    rw [shown_of_slot? h, shown_of_slot? (slot?_narrowTo.trans h), get_narrowTo hs]
    split
    · next heq => rw [heq]
    · rfl

theorem permitted_narrowTo : (t.narrowTo s types).permitted n =
    if t.slot? n = some s then (t.permitted n).inter types else t.permitted n := by
  cases h : t.slot? n with
  | none =>
    rw [permitted_of_unbound h, permitted_of_unbound (slot?_narrowTo.trans h), if_neg (by simp)]
  | some s' =>
    rw [permitted_of_slot? h, permitted_of_slot? (slot?_narrowTo.trans h), get_narrowTo hs]
    by_cases heq : s' = s
    · rw [if_pos heq, if_pos (congrArg some heq), heq]
    · rw [if_neg heq, if_neg fun h => heq (Option.some.inj h)]

/-- Widening climbs. -/
theorem under_widenTo (ht : t.Sound) (htypes : types.Canonical) :
    t.Under (t.widenTo s types) where
  shown n := by
    rw [shown_widenTo hs]
    split
    · exact (TypeSet.sub_union_left (ht.canonical_shown n) htypes).within
    · exact TypeSet.Within.refl _
  permitted n := by
    rw [permitted_widenTo hs]
    exact TypeSet.Within.refl _

/-- Narrowing climbs. -/
theorem under_narrowTo (ht : t.Sound) (htypes : types.Canonical) :
    t.Under (t.narrowTo s types) where
  shown n := by
    rw [shown_narrowTo hs]
    exact TypeSet.Within.refl _
  permitted n := by
    rw [permitted_narrowTo hs]
    split
    · exact TypeSet.inter_within_left (ht.canonical_permitted n) htypes
    · exact TypeSet.Within.refl _

/-- A widening stays under a table that shows what is added. -/
theorem Under.widenTo (h : t.Under T) (ht : t.Sound) (htypes : types.Canonical)
    (hmet : ∀ n, t.slot? n = some s → types.Within (T.shown n)) : (t.widenTo s types).Under T where
  shown n := by
    rw [shown_widenTo hs]
    split
    · next hn => exact TypeSet.union_within (ht.canonical_shown n) htypes (h.shown n) (hmet n hn)
    · exact h.shown n
  permitted n := by
    rw [permitted_widenTo hs]
    exact h.permitted n

/-- A narrowing stays under a table that permits no more. -/
theorem Under.narrowTo (h : t.Under T) (ht : t.Sound) (htypes : types.Canonical)
    (hmet : ∀ n, t.slot? n = some s → (T.permitted n).Within types) :
    (t.narrowTo s types).Under T where
  shown n := by
    rw [shown_narrowTo hs]
    exact h.shown n
  permitted n := by
    rw [permitted_narrowTo hs]
    split
    · next hn =>
      exact TypeSet.within_inter (ht.canonical_permitted n) htypes (h.permitted n) (hmet n hn)
    · exact h.permitted n

end Step

end BoundsTable

/-! ## Requests -/

/-- A table already has what is asked of it. Nothing is asked of nodes without bounds. -/
def Request.Met (t : BoundsTable) : Request → Prop
  | .widen n types => (t.slot? n).isSome → types.Within (t.shown n)
  | .narrow n types => (t.slot? n).isSome → (t.permitted n).Within types

variable {t T : BoundsTable} {q : Request} {requests : List Request}

/-- What is met stays met further up. -/
theorem Request.Met.mono (h : t.Under T) (hslot : ∀ n, T.slot? n = t.slot? n) (hq : q.Met t) :
    q.Met T := by
  cases q with
  | widen n types => exact fun hn => (hq (hslot n ▸ hn)).trans (h.shown n)
  | narrow n types => exact fun hn => (h.permitted n).trans (hq (hslot n ▸ hn))

/-- A request that changes nothing is met. -/
theorem Request.met_of_changes (ht : t.Sound) (hq : q.Canonical) (h : q.changes t = false) :
    q.Met t := by
  cases q with
  | widen n types =>
    intro hn
    obtain ⟨s, hs⟩ := Option.isSome_iff_exists.1 hn
    exact (Request.sub_shown_of_widen ht hs hq h).within
  | narrow n types =>
    intro hn
    obtain ⟨s, hs⟩ := Option.isSome_iff_exists.1 hn
    exact Request.permitted_within_of_narrow ht hq h hs

namespace Update

open BoundsTable

/-- What the steps of an update keep of the table at hand. -/
structure Climbs (t t' : BoundsTable) : Prop where
  sound : t'.Sound
  size : t'.size = t.size
  slot : ∀ n, t'.slot? n = t.slot? n
  under : t.Under t'

theorem Climbs.refl (ht : t.Sound) : Climbs t t := ⟨ht, rfl, fun _ => rfl, .refl t⟩

theorem Climbs.widenTo {t' : BoundsTable} {s : Slot} {types : TypeSet} (h : Climbs t t')
    (hs : s.index < t.size) (htypes : types.Canonical) : Climbs t (t'.widenTo s types) := by
  rw [← h.size] at hs
  exact ⟨h.sound.widenTo hs htypes, size_widenTo.trans h.size,
    fun n => slot?_widenTo.trans (h.slot n), h.under.trans (under_widenTo hs h.sound htypes)⟩

theorem Climbs.narrowTo {t' : BoundsTable} {s : Slot} {types : TypeSet} (h : Climbs t t')
    (hs : s.index < t.size) (htypes : types.Canonical) : Climbs t (t'.narrowTo s types) := by
  rw [← h.size] at hs
  exact ⟨h.sound.narrowTo hs htypes, size_narrowTo.trans h.size,
    fun n => slot?_narrowTo.trans (h.slot n), h.under.trans (under_narrowTo hs h.sound htypes)⟩

/-- An update climbs. -/
theorem climbs_result {u : Update} (ht : t.Sound) (hu : u.Fits t.size) : Climbs t (u.result t) :=
  result_induction (I := Climbs t)
    (fun _ _ he _ h => h.widenTo (hu.widen _ he).1 (hu.widen _ he).2)
    (fun _ _ he _ h => h.narrowTo (hu.narrow _ he).1 (hu.narrow _ he).2) (.refl ht)

/-- After an update, nodes show what it widens them by. -/
theorem within_shown_result {u : Update} {s : Slot} {types : TypeSet} {n : NodeId} (ht : t.Sound)
    (hu : u.Fits t.size) (he : (s, types) ∈ u.widen) (hn : t.slot? n = some s) :
    types.Within ((u.result t).shown n) := by
  obtain ⟨ws, ns⟩ := u
  obtain ⟨before, after, rfl⟩ := List.append_of_mem he
  obtain ⟨hs, htypes⟩ := hu.widen _ he
  -- the table in front of the widening, and the rest of the update behind it
  have hfirst : Climbs t (result ⟨before, []⟩ t) :=
    climbs_result ht ⟨fun e he => hu.widen e (List.mem_append_left _ he), by simp⟩
  generalize hmid : result ⟨before, []⟩ t = mid at hfirst
  have hsplit : result ⟨before ++ (s, types) :: after, ns⟩ t =
      result ⟨after, ns⟩ (mid.widenTo s types) := by
    rw [← hmid]
    simp [result]
  have hs' : s.index < mid.size := hfirst.size ▸ hs
  have hnext := hfirst.widenTo hs htypes
  have hrest : Climbs (mid.widenTo s types) (result ⟨after, ns⟩ (mid.widenTo s types)) := by
    refine climbs_result hnext.sound ⟨fun e he => ?_, fun e he => ?_⟩
    · exact hnext.size ▸ hu.widen e (List.mem_append_right _ (List.mem_cons_of_mem _ he))
    · exact hnext.size ▸ hu.narrow e he
  have hshown : types.Within ((mid.widenTo s types).shown n) := by
    rw [shown_widenTo hs', if_pos ((hfirst.slot n).trans hn)]
    exact (TypeSet.sub_union_right (hfirst.sound.canonical_shown n) htypes).within
  rw [hsplit]
  exact hshown.trans (hrest.under.shown n)

/-- After an update, nodes permit no more than it narrows them to. -/
theorem permitted_result_within {u : Update} {s : Slot} {types : TypeSet} {n : NodeId}
    (ht : t.Sound) (hu : u.Fits t.size) (he : (s, types) ∈ u.narrow) (hn : t.slot? n = some s) :
    ((u.result t).permitted n).Within types := by
  obtain ⟨ws, ns⟩ := u
  obtain ⟨before, after, rfl⟩ := List.append_of_mem he
  obtain ⟨hs, htypes⟩ := hu.narrow _ he
  have hfirst : Climbs t (result ⟨ws, before⟩ t) :=
    climbs_result ht ⟨hu.widen, fun e he => hu.narrow e (List.mem_append_left _ he)⟩
  generalize hmid : result ⟨ws, before⟩ t = mid at hfirst
  have hsplit : result ⟨ws, before ++ (s, types) :: after⟩ t =
      result ⟨[], after⟩ (mid.narrowTo s types) := by
    rw [← hmid]
    simp [result]
  have hs' : s.index < mid.size := hfirst.size ▸ hs
  have hnext := hfirst.narrowTo hs htypes
  have hrest : Climbs (mid.narrowTo s types) (result ⟨[], after⟩ (mid.narrowTo s types)) := by
    refine climbs_result hnext.sound ⟨by simp, fun e he => ?_⟩
    exact hnext.size ▸ hu.narrow e (List.mem_append_right _ (List.mem_cons_of_mem _ he))
  have hpermitted : ((mid.narrowTo s types).permitted n).Within types := by
    rw [permitted_narrowTo hs', if_pos ((hfirst.slot n).trans hn)]
    exact TypeSet.inter_within_right (hfirst.sound.canonical_permitted n) htypes
  rw [hsplit]
  exact (hrest.under.permitted n).trans hpermitted

/-- After an update, all that it was asked for is met. -/
theorem met_result (ht : t.Sound) (hr : ∀ q ∈ requests, q.Canonical) :
    ∀ q ∈ requests, q.Met ((ofRequests t requests).result t) := by
  intro q hq
  have hfits := fits_ofRequests ht hr
  by_cases hchanges : q.changes t = true
  · cases q with
    | widen n types =>
      obtain ⟨s, hs, hs'⟩ := (Option.any_eq_true _ _).1 hchanges
      exact fun _ =>
        within_shown_result ht hfits (mem_widen_ofRequests.2 ⟨n, hq, hs, hs'⟩) hs
    | narrow n types =>
      obtain ⟨s, hs, hs'⟩ := (Option.any_eq_true _ _).1 hchanges
      exact fun _ =>
        permitted_result_within ht hfits (mem_narrow_ofRequests.2 ⟨n, hq, hs, hs'⟩) hs
  · exact (Request.met_of_changes ht (hr q hq) (by simpa using hchanges)).mono
      (climbs_result ht hfits).under (climbs_result ht hfits).slot

/-- An update shows no more of a node than a bound on what was shown, if no set that is asked for
in its slot exceeds the bound. -/
theorem shown_result_within (ht : t.Sound) (hr : ∀ q ∈ requests, q.Canonical) {n : NodeId}
    {bound : TypeSet} (hshown : (t.shown n).Within bound)
    (hwidens : ∀ m types, .widen m types ∈ requests → (t.slot? m).isSome →
      t.slot? m = t.slot? n → types.Within bound) :
    (((ofRequests t requests).result t).shown n).Within bound := by
  have hfits := fits_ofRequests ht hr
  refine (result_induction (I := fun t' => Climbs t t' ∧ (t'.shown n).Within bound) ?_ ?_
    ⟨.refl ht, hshown⟩).2
  · rintro s types he t' ⟨hclimbs, hwithin⟩
    obtain ⟨m, hq, hm, -⟩ := mem_widen_ofRequests.1 he
    obtain ⟨hs, htypes⟩ := hfits.widen _ he
    refine ⟨hclimbs.widenTo hs htypes, ?_⟩
    rw [shown_widenTo (hclimbs.size ▸ hs), hclimbs.slot]
    split
    · next hn =>
      exact TypeSet.union_within (hclimbs.sound.canonical_shown n) htypes hwithin
        (hwidens m types hq (by simp [hm]) (hm.trans hn.symm))
    · exact hwithin
  · rintro s types he t' ⟨hclimbs, hwithin⟩
    obtain ⟨hs, htypes⟩ := hfits.narrow _ he
    refine ⟨hclimbs.narrowTo hs htypes, ?_⟩
    rwa [shown_narrowTo (hclimbs.size ▸ hs)]

/-- Taking up requests that are met by a table above stays under it. -/
theorem under_result_of_met (ht : t.Sound) (hr : ∀ q ∈ requests, q.Canonical)
    (hjoins : t.Joins T) (hmet : ∀ q ∈ requests, q.Met T) (h : t.Under T) :
    ((ofRequests t requests).result t).Under T := by
  have hfits := fits_ofRequests ht hr
  refine (result_induction (I := fun t' => Climbs t t' ∧ t'.Under T) ?_ ?_ ⟨.refl ht, h⟩).2
  · rintro s types he t' ⟨hclimbs, hunder⟩
    obtain ⟨n, hq, hn, -⟩ := mem_widen_ofRequests.1 he
    obtain ⟨hs, htypes⟩ := hfits.widen _ he
    refine ⟨hclimbs.widenTo hs htypes,
      hunder.widenTo (hclimbs.size ▸ hs) hclimbs.sound htypes fun m hm => ?_⟩
    rw [hclimbs.slot] at hm
    obtain ⟨hbound, hsame⟩ := hjoins n m (by simp [hn]) (hn.trans hm.symm)
    have hshown : T.shown m = T.shown n := by rw [shown, of?_eq, ← hsame, ← of?_eq, ← shown]
    rw [hshown]
    exact hmet _ hq hbound
  · rintro s types he t' ⟨hclimbs, hunder⟩
    obtain ⟨n, hq, hn, -⟩ := mem_narrow_ofRequests.1 he
    obtain ⟨hs, htypes⟩ := hfits.narrow _ he
    refine ⟨hclimbs.narrowTo hs htypes,
      hunder.narrowTo (hclimbs.size ▸ hs) hclimbs.sound htypes fun m hm => ?_⟩
    rw [hclimbs.slot] at hm
    obtain ⟨hbound, hsame⟩ := hjoins n m (by simp [hn]) (hn.trans hm.symm)
    have hpermitted : T.permitted m = T.permitted n := by
      rw [permitted, of?_eq, ← hsame, ← of?_eq, ← permitted]
    rw [hpermitted]
    exact hmet _ hq hbound

end Update

end TypeFlow
