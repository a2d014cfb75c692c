import TypeFlow.Bounds.Update
import TypeFlow.Proofs.Bounds.Table
/-!
# Updates of sound tables

Which requests an update takes up (`mem_widen_ofRequests`, `mem_narrow_ofRequests`), and what it
makes of a sound table: `Update.result`, all widenings and then all narrowings. Whatever each of
these steps preserves, the update preserves (`result_induction`).
-/

namespace TypeFlow

namespace Request

/-- The set that is asked for. -/
def types : Request → TypeSet
  | .widen _ types | .narrow _ types => types

variable {t : BoundsTable} {n : NodeId} {types : TypeSet}

/-- The set is canonical. -/
def Canonical (r : Request) : Prop := r.types.Canonical

/-- Whether a request would change a table. -/
def changes (t : BoundsTable) : Request → Bool
  | .widen n types => (t.slot? n).any fun s => (t.get s).shown.unionChanges types
  | .narrow n types => (t.slot? n).any fun s => (t.get s).permitted.interChanges types

/-- A request that changes nothing asks for what is shown already. -/
theorem sub_shown_of_widen (ht : t.Sound) {s : Slot} (hs : t.slot? n = some s)
    (htypes : types.Canonical) (h : (Request.widen n types).changes t = false) :
    types.Sub (t.shown n) := by
  have hchanges : (t.get s).shown.unionChanges types = false := by simpa [changes, hs] using h
  rw [BoundsTable.shown_of_slot? hs]
  exact (TypeSet.unionChanges_eq_false (ht.canonical s).1 htypes).1 hchanges

/-- A request that changes nothing asks for a bound that holds already. -/
theorem permitted_within_of_narrow (ht : t.Sound) (htypes : types.Canonical)
    (h : (Request.narrow n types).changes t = false) {s : Slot} (hs : t.slot? n = some s) :
    (t.permitted n).Within types := by
  have hchanges : (t.get s).permitted.interChanges types = false := by simpa [changes, hs] using h
  rw [BoundsTable.permitted_of_slot? hs]
  exact TypeSet.within_of_inter_eq (ht.canonical s).2 htypes
    (TypeSet.interChanges_eq_false.1 hchanges)

end Request

namespace Update

variable {t : BoundsTable} {u : Update} {s : Slot} {types : TypeSet} {requests : List Request}

/-! ## Taking up requests -/

/-- The entry of a widening that is taken up. -/
def widening? (t : BoundsTable) : Request → Option (Slot × TypeSet)
  | .widen n types =>
    (t.slot? n).bind fun s =>
      if (t.get s).shown.unionChanges types then some (s, types) else none
  | .narrow _ _ => none

/-- The entry of a narrowing that is taken up. -/
def narrowing? (t : BoundsTable) : Request → Option (Slot × TypeSet)
  | .widen _ _ => none
  | .narrow n types =>
    (t.slot? n).bind fun s =>
      if (t.get s).permitted.interChanges types then some (s, types) else none

theorem ask_eq (t : BoundsTable) (u : Update) (r : Request) : ask t u r =
    ⟨u.widen ++ (widening? t r).toList, u.narrow ++ (narrowing? t r).toList⟩ := by
  cases r with
  | widen n types =>
    simp only [ask, widenAt, widening?, narrowing?]
    cases t.slot? n with
    | none => simp
    | some s => by_cases h : (t.get s).shown.unionChanges types <;> simp [h]
  | narrow n types =>
    simp only [ask, narrowAt, widening?, narrowing?]
    cases t.slot? n with
    | none => simp
    | some s => by_cases h : (t.get s).permitted.interChanges types <;> simp [h]

theorem foldl_ask (t : BoundsTable) : ∀ (requests : List Request) (u : Update),
    requests.foldl (ask t) u =
      ⟨u.widen ++ requests.filterMap (widening? t), u.narrow ++ requests.filterMap (narrowing? t)⟩
  | [], u => by simp
  | r :: rs, u => by
    rw [List.foldl_cons, foldl_ask t rs, ask_eq]
    cases hw : widening? t r <;> cases hn : narrowing? t r <;> simp [hw, hn]

theorem ofRequests_eq (t : BoundsTable) (requests : List Request) : ofRequests t requests =
    ⟨requests.filterMap (widening? t), requests.filterMap (narrowing? t)⟩ := by
  rw [ofRequests, foldl_ask]
  simp [empty]

theorem mem_widen_ofRequests : (s, types) ∈ (ofRequests t requests).widen ↔
    ∃ n, Request.widen n types ∈ requests ∧ t.slot? n = some s ∧
      (t.get s).shown.unionChanges types := by
  rw [ofRequests_eq, List.mem_filterMap]
  constructor
  · rintro ⟨r, hr, h⟩
    cases r with
    | widen n x =>
      obtain ⟨s', hs', hif⟩ := Option.bind_eq_some_iff.1 h
      obtain ⟨hc, heq⟩ : (t.get s').shown.unionChanges x = true ∧ (s', x) = (s, types) := by
        simpa using hif
      obtain ⟨rfl, rfl⟩ := Prod.mk.inj heq
      exact ⟨n, hr, hs', hc⟩
    | narrow n x => cases h
  · rintro ⟨n, hr, hs, hc⟩
    exact ⟨_, hr, by simp [widening?, hs, hc]⟩

theorem mem_narrow_ofRequests : (s, types) ∈ (ofRequests t requests).narrow ↔
    ∃ n, Request.narrow n types ∈ requests ∧ t.slot? n = some s ∧
      (t.get s).permitted.interChanges types := by
  rw [ofRequests_eq, List.mem_filterMap]
  constructor
  · rintro ⟨r, hr, h⟩
    cases r with
    | widen n x => cases h
    | narrow n x =>
      obtain ⟨s', hs', hif⟩ := Option.bind_eq_some_iff.1 h
      obtain ⟨hc, heq⟩ : (t.get s').permitted.interChanges x = true ∧ (s', x) = (s, types) := by
        simpa using hif
      obtain ⟨rfl, rfl⟩ := Prod.mk.inj heq
      exact ⟨n, hr, hs', hc⟩
  · rintro ⟨n, hr, hs, hc⟩
    exact ⟨_, hr, by simp [narrowing?, hs, hc]⟩

theorem widening?_eq_none_and (t : BoundsTable) (r : Request) :
    (widening? t r = none ∧ narrowing? t r = none) ↔ r.changes t = false := by
  cases r with
  | widen n types => cases hs : t.slot? n <;> simp [widening?, narrowing?, Request.changes, hs]
  | narrow n types => cases hs : t.slot? n <;> simp [widening?, narrowing?, Request.changes, hs]

/-- An update that takes up nothing stands for requests that change nothing. -/
theorem nonempty?_ofRequests_eq_none : (ofRequests t requests).nonempty? = none ↔
    ∀ r ∈ requests, r.changes t = false := by
  have hnone : (ofRequests t requests).nonempty? = none ↔ (ofRequests t requests).isEmpty := by
    unfold nonempty?
    split <;> simp_all
  rw [hnone, ofRequests_eq, isEmpty]
  simp only [Bool.and_eq_true, List.isEmpty_iff, List.filterMap_eq_nil_iff]
  constructor
  · rintro ⟨hw, hn⟩ r hr
    exact (widening?_eq_none_and t r).1 ⟨hw r hr, hn r hr⟩
  · intro h
    exact ⟨fun r hr => ((widening?_eq_none_and t r).2 (h r hr)).1,
      fun r hr => ((widening?_eq_none_and t r).2 (h r hr)).2⟩

/-! ## Applying an update -/

/-- The table after all widenings and then all narrowings. -/
def result (u : Update) (t : BoundsTable) : BoundsTable :=
  u.narrow.foldl (fun t e => t.narrowTo e.1 e.2) (u.widen.foldl (fun t e => t.widenTo e.1 e.2) t)

/-- Every entry has a slot below a bound and a canonical set. -/
structure Fits (u : Update) (size : Nat) : Prop where
  widen : ∀ e ∈ u.widen, e.1.index < size ∧ e.2.Canonical
  narrow : ∀ e ∈ u.narrow, e.1.index < size ∧ e.2.Canonical

theorem fits_ofRequests (ht : t.Sound) (hr : ∀ r ∈ requests, r.Canonical) :
    (ofRequests t requests).Fits t.size where
  widen := by
    rintro ⟨s, types⟩ he
    obtain ⟨n, hmem, hs, -⟩ := mem_widen_ofRequests.1 he
    exact ⟨ht.made n s hs, hr _ hmem⟩
  narrow := by
    rintro ⟨s, types⟩ he
    obtain ⟨n, hmem, hs, -⟩ := mem_narrow_ofRequests.1 he
    exact ⟨ht.made n s hs, hr _ hmem⟩

/-- Changes that keep the table sound are made one after the other. -/
theorem run_applyEach {change : Slot → TypeSet → Run BoundsTable Bool}
    {step : BoundsTable → Slot → TypeSet → BoundsTable} {N : Nat}
    (hrun : ∀ t s types, t.Sound → types.Canonical →
      ∃ b, (change s types).run t = (.ok b, step t s types))
    (hstep : ∀ t s types, t.Sound → t.size = N → s.index < N → types.Canonical →
      (step t s types).Sound ∧ (step t s types).size = N) :
    ∀ (entries : List (Slot × TypeSet)) (t : BoundsTable), t.Sound → t.size = N →
      (∀ e ∈ entries, e.1.index < N ∧ e.2.Canonical) →
      (∃ k, (applyEach change entries).run t =
        (.ok k, entries.foldl (fun t e => step t e.1 e.2) t)) ∧
      (entries.foldl (fun t e => step t e.1 e.2) t).Sound ∧
      (entries.foldl (fun t e => step t e.1 e.2) t).size = N
  | [], t, ht, hsize, _ => ⟨⟨0, rfl⟩, ht, hsize⟩
  | (s, types) :: rest, t, ht, hsize, he => by
    obtain ⟨hs, htypes⟩ := he (s, types) List.mem_cons_self
    obtain ⟨b, hb⟩ := hrun t s types ht htypes
    obtain ⟨ht', hsize'⟩ := hstep t s types ht hsize hs htypes
    obtain ⟨⟨k, hk⟩, hend⟩ := run_applyEach hrun hstep rest (step t s types) ht' hsize'
      fun e h => he e (List.mem_cons_of_mem _ h)
    refine ⟨⟨k + b.toNat, ?_⟩, hend⟩
    rw [applyEach, Run.run_bind_of_ok hb, Run.run_bind_of_ok hk]
    rfl

/-- On a sound table an update does not fail, and its result is sound. -/
theorem run_apply (ht : t.Sound) (hu : u.Fits t.size) :
    (∃ k, u.apply.run t = (.ok k, u.result t)) ∧ (u.result t).Sound ∧
      (u.result t).size = t.size := by
  obtain ⟨⟨k, hk⟩, ht', hsize⟩ := run_applyEach (N := t.size)
    (fun t s types ht htypes => ⟨_, BoundsTable.run_widen ht htypes⟩)
    (fun t s types ht hsize hs htypes => ⟨ht.widenTo (hsize ▸ hs) htypes, by simpa using hsize⟩)
    u.widen t ht rfl hu.widen
  obtain ⟨⟨l, hl⟩, ht'', hsize'⟩ := run_applyEach (N := t.size)
    (fun t s types ht htypes => ⟨_, BoundsTable.run_narrow ht htypes⟩)
    (fun t s types ht hsize hs htypes => ⟨ht.narrowTo (hsize ▸ hs) htypes, by simpa using hsize⟩)
    u.narrow _ ht' hsize hu.narrow
  refine ⟨⟨k + l, ?_⟩, ht'', hsize'⟩
  rw [apply, Run.run_bind_of_ok hk, Run.run_bind_of_ok hl]
  rfl

/-- What every widening and every narrowing of an update preserves, the update preserves. -/
theorem result_induction {I : BoundsTable → Prop}
    (hwiden : ∀ s types, (s, types) ∈ u.widen → ∀ t, I t → I (t.widenTo s types))
    (hnarrow : ∀ s types, (s, types) ∈ u.narrow → ∀ t, I t → I (t.narrowTo s types))
    (ht : I t) : I (u.result t) := by
  have hfold : ∀ {step : BoundsTable → Slot → TypeSet → BoundsTable}
      (entries : List (Slot × TypeSet)) (t : BoundsTable),
      (∀ s types, (s, types) ∈ entries → ∀ t, I t → I (step t s types)) → I t →
      I (entries.foldl (fun t e => step t e.1 e.2) t) := by
    intro step entries
    induction entries with
    | nil => exact fun t _ ht => ht
    | cons e es ih =>
      exact fun t h ht => ih _ (fun s types he => h s types (List.mem_cons_of_mem _ he))
        (h e.1 e.2 List.mem_cons_self t ht)
  exact hfold u.narrow _ hnarrow (hfold u.widen t hwiden ht)

/-- A measure that no step of an update raises, and that the steps which change something in the
table at hand lower, falls if the update takes something up. -/
theorem result_lt {I : BoundsTable → Prop} {μ : BoundsTable → Nat}
    (hwiden : ∀ s types, (s, types) ∈ u.widen → ∀ t, I t → I (t.widenTo s types) ∧
      μ (t.widenTo s types) ≤ μ t ∧
        ((t.get s).shown.unionChanges types → μ (t.widenTo s types) < μ t))
    (hnarrow : ∀ s types, (s, types) ∈ u.narrow → ∀ t, I t → I (t.narrowTo s types) ∧
      μ (t.narrowTo s types) ≤ μ t ∧
        ((t.get s).permitted.interChanges types → μ (t.narrowTo s types) < μ t))
    (ht : I t)
    (hw : ∀ s types, (s, types) ∈ u.widen → (t.get s).shown.unionChanges types)
    (hn : ∀ s types, (s, types) ∈ u.narrow → (t.get s).permitted.interChanges types)
    (hne : u.widen ≠ [] ∨ u.narrow ≠ []) : μ (u.result t) < μ t := by
  obtain ⟨ws, ns⟩ := u
  cases ws with
  | cons w ws =>
    obtain ⟨hI, -, hlt⟩ := hwiden w.1 w.2 List.mem_cons_self t ht
    have hfirst := hlt (hw w.1 w.2 List.mem_cons_self)
    have hrest := result_induction (u := ⟨ws, ns⟩)
      (I := fun t' => I t' ∧ μ t' ≤ μ (t.widenTo w.1 w.2))
      (fun s types he t' ht' => by
        obtain ⟨h, hle, -⟩ := hwiden s types (List.mem_cons_of_mem _ he) t' ht'.1
        exact ⟨h, Nat.le_trans hle ht'.2⟩)
      (fun s types he t' ht' => by
        obtain ⟨h, hle, -⟩ := hnarrow s types he t' ht'.1
        exact ⟨h, Nat.le_trans hle ht'.2⟩)
      ⟨hI, Nat.le_refl _⟩
    exact Nat.lt_of_le_of_lt hrest.2 hfirst
  | nil =>
    cases ns with
    | nil => simp at hne
    | cons w ns =>
      obtain ⟨hI, -, hlt⟩ := hnarrow w.1 w.2 List.mem_cons_self t ht
      have hfirst := hlt (hn w.1 w.2 List.mem_cons_self)
      have hrest := result_induction (u := ⟨[], ns⟩)
        (I := fun t' => I t' ∧ μ t' ≤ μ (t.narrowTo w.1 w.2))
        (fun s types he => by cases he)
        (fun s types he t' ht' => by
          obtain ⟨h, hle, -⟩ := hnarrow s types (List.mem_cons_of_mem _ he) t' ht'.1
          exact ⟨h, Nat.le_trans hle ht'.2⟩)
        ⟨hI, Nat.le_refl _⟩
      exact Nat.lt_of_le_of_lt hrest.2 hfirst

@[simp] theorem slot?_result (u : Update) (t : BoundsTable) (n : NodeId) :
    (u.result t).slot? n = t.slot? n :=
  result_induction (I := fun t' => t'.slot? n = t.slot? n) (fun _ _ _ _ h => h)
    (fun _ _ _ _ h => h) rfl

/-- An update only adds to what nodes show. -/
theorem shown_sub_result (ht : t.Sound) (hu : u.Fits t.size) (n : NodeId) :
    (t.shown n).Sub ((u.result t).shown n) := by
  have hgrow : (u.result t).Sound ∧ (u.result t).size = t.size ∧
      ∀ s, (t.get s).shown.Sub ((u.result t).get s).shown := by
    refine result_induction
      (I := fun t' => t'.Sound ∧ t'.size = t.size ∧ ∀ s, (t.get s).shown.Sub (t'.get s).shown)
      (fun s types he t' ht' => ?_) (fun s types he t' ht' => ?_)
      ⟨ht, rfl, fun s => TypeSet.Sub.refl _⟩
    · obtain ⟨hsound, hsize, hsub⟩ := ht'
      obtain ⟨hs, htypes⟩ := hu.widen _ he
      rw [← hsize] at hs
      refine ⟨hsound.widenTo hs htypes, by simpa using hsize, fun s' => ?_⟩
      rw [BoundsTable.get_widenTo hs]
      split
      · next heq =>
        rw [heq]
        exact (hsub s).trans (TypeSet.sub_union_left (hsound.canonical s).1 htypes)
      · exact hsub s'
    · obtain ⟨hsound, hsize, hsub⟩ := ht'
      obtain ⟨hs, htypes⟩ := hu.narrow _ he
      rw [← hsize] at hs
      refine ⟨hsound.narrowTo hs htypes, by simpa using hsize, fun s' => ?_⟩
      rw [BoundsTable.get_narrowTo hs]
      split
      · next heq =>
        rw [heq]
        exact hsub s
      · exact hsub s'
  cases h : t.slot? n with
  | none =>
    rw [BoundsTable.shown_of_unbound h]
    exact TypeSet.empty_sub _
  | some s =>
    rw [BoundsTable.shown_of_slot? h, BoundsTable.shown_of_slot? ((slot?_result u t n).trans h)]
    exact hgrow.2.2 s

end Update

end TypeFlow
