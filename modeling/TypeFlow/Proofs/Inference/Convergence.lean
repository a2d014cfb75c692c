import Mathlib.Algebra.BigOperators.Group.Finset.Basic
import Mathlib.Algebra.Order.BigOperators.Group.Finset
import TypeFlow.Proofs.Coloring.Paint
import TypeFlow.Proofs.Flow.Depth
import TypeFlow.Proofs.Flow.Faults
import TypeFlow.Proofs.Inference.Outcome
/-!
# Inference converges

All leaves of a run stay in one finite universe, so that a table has bounded `room`: the sum over
its slots of how far what they show may grow and what they permit may shrink. Every firing leaves
less of it (`room_lt_of_fires`), and with as many rounds as there is room at the start no run goes
past its ceiling (`converges`). What it comes to on a resolved program is said in `comes_to_rest`.
-/

namespace TypeFlow

open TypeSet

/-! ## Room in a table -/

/-- How far bounds may still change. -/
noncomputable def Bounds.room (U : Finset TypeSet) (b : Bounds) : Nat :=
  growth U b.shown + shrinkage U b.permitted

namespace BoundsTable

variable {t : BoundsTable} {s : Slot} {types : TypeSet} {U : Finset TypeSet} {b : Bounds}

/-- How far the bounds in all slots may still change. -/
noncomputable def room (U : Finset TypeSet) (t : BoundsTable) : Nat :=
  ∑ i ∈ Finset.range t.size, (t.get ⟨i⟩).room U

theorem room_set_le (hs : s.index < t.size) (h : b.room U ≤ (t.get s).room U) :
    (t.set s b).room U ≤ t.room U := by
  unfold room
  rw [size_set]
  refine Finset.sum_le_sum fun i _ => ?_
  rw [get_set hs]
  split
  · next hi => rwa [hi]
  · exact Nat.le_refl _

theorem room_set_lt (hs : s.index < t.size) (h : b.room U < (t.get s).room U) :
    (t.set s b).room U < t.room U := by
  unfold room
  rw [size_set]
  refine Finset.sum_lt_sum (fun i _ => ?_) ⟨s.index, Finset.mem_range.2 hs, ?_⟩
  · rw [get_set hs]
    split
    · next hi => rw [hi]; exact Nat.le_of_lt h
    · exact Nat.le_refl _
  · rw [get_set hs, if_pos rfl]
    exact h

theorem room_widenTo (ht : t.Over (· ∈ U)) (hs : s.index < t.size)
    (htypes : TypeSet.Over (· ∈ U) types) : (t.widenTo s types).room U ≤ t.room U ∧
      ((t.get s).shown.unionChanges types → (t.widenTo s types).room U < t.room U) :=
  ⟨room_set_le hs (Nat.add_le_add_right (growth_union_le (ht s).1.1 htypes) _),
    fun h => room_set_lt hs (Nat.add_lt_add_right (growth_union_lt (ht s).1.1 htypes h) _)⟩

theorem room_narrowTo (ht : t.Over (· ∈ U)) (hs : s.index < t.size)
    (htypes : TypeSet.Over (· ∈ U) types) : (t.narrowTo s types).room U ≤ t.room U ∧
      ((t.get s).permitted.interChanges types → (t.narrowTo s types).room U < t.room U) :=
  ⟨room_set_le hs (Nat.add_le_add_left (shrinkage_inter_le (ht s).2 htypes) _),
    fun h => room_set_lt hs (Nat.add_lt_add_left (shrinkage_inter_lt (ht s).2 htypes h) _)⟩

/-- Taking up requests, one of which changes something, leaves less room. -/
theorem room_result_lt (ht : t.Sound) (hover : t.Over (· ∈ U)) {requests : List Request}
    (hr : RequestsOver (· ∈ U) requests) (hchanges : ∃ q ∈ requests, q.changes t) :
    ((Update.ofRequests t requests).result t).room U < t.room U := by
  have hfits := Update.fits_ofRequests ht fun q hq => (hr q hq).1
  refine Update.result_lt (I := fun t' => t'.size = t.size ∧ t'.Over (· ∈ U))
    (fun s types he t' ht' => ?_) (fun s types he t' ht' => ?_) ⟨rfl, hover⟩ ?_ ?_ ?_
  · obtain ⟨n, hq, -⟩ := Update.mem_widen_ofRequests.1 he
    have hs : s.index < t'.size := ht'.1 ▸ (hfits.widen _ he).1
    exact ⟨⟨by simpa using ht'.1, ht'.2.widenTo hs (hr _ hq)⟩, room_widenTo ht'.2 hs (hr _ hq)⟩
  · obtain ⟨n, hq, -⟩ := Update.mem_narrow_ofRequests.1 he
    have hs : s.index < t'.size := ht'.1 ▸ (hfits.narrow _ he).1
    exact ⟨⟨by simpa using ht'.1, ht'.2.narrowTo hs (hr _ hq)⟩, room_narrowTo ht'.2 hs (hr _ hq)⟩
  · intro s types he
    obtain ⟨n, -, -, hc⟩ := Update.mem_widen_ofRequests.1 he
    exact hc
  · intro s types he
    obtain ⟨n, -, -, hc⟩ := Update.mem_narrow_ofRequests.1 he
    exact hc
  · by_contra hno
    obtain ⟨hw, hn⟩ := not_or.1 hno
    obtain ⟨q, hq, hc⟩ := hchanges
    have hnone : (Update.ofRequests t requests).nonempty? = none := by
      simp [Update.nonempty?, Update.isEmpty, not_not.1 hw, not_not.1 hn]
    simp [Update.nonempty?_ofRequests_eq_none.1 hnone q hq] at hc

end BoundsTable

/-! ## Runs -/

namespace Inference

variable {g g' : Graph} {t t' : BoundsTable} {n root : NodeId} {fault : Fault}

/-- The leaves that a run over a graph can come to. -/
def allLeaves (g : Graph) : Finset TypeSet := leavesUpTo g.mentioned (2 * g.size + 1)

theorem mem_allLeaves {x : TypeSet} (h : Flow.AtLevel g (Flow.level g t) x) : x ∈ allLeaves g :=
  leavesUpTo_mono (Flow.level_le g t) h

/-- Every firing leaves less room. -/
theorem room_lt_of_fires {methods : List NodeId} {r : FlowRule} (hr : r ∈ Flow.rules g methods)
    (h : Flow.Bounded g t) (hfires : Rule.Fires Flow.commit r.toRule n t t') :
    t'.room (allLeaves g) < t.room (allLeaves g) := by
  have hfamily := Flow.leafFamily_atLevel g (k := Flow.level g t) (by unfold Flow.level; omega)
  have hover : ∀ requests, r.asks t n = .ok requests → RequestsOver (· ∈ allLeaves g) requests :=
    fun requests hasks q hq =>
      (Flow.over_asks hfamily h.leaves h.literals trivial hr hasks q hq).mono
        fun x hx => mem_allLeaves hx
  obtain ⟨-, requests, hasks, hchanges, rfl⟩ := FlowRule.eq_result_of_fires h.sound
    (fun requests hasks q hq => (hover requests hasks q hq).1) hfires
  exact BoundsTable.room_result_lt h.sound (h.leaves.mono fun x hx => mem_allLeaves hx)
    (hover requests hasks) hchanges

/-- A seeded table is bounded. -/
theorem bounded_of_seeded {allow : Bool} (h : seeded g root allow = .ok t) : Flow.Bounded g t := by
  rw [seeded_eq] at h
  cases hrequests : Flow.seedRequests g root allow (typable g root) with
  | error fault =>
    rw [hrequests] at h
    cases h
  | ok requests =>
    rw [hrequests] at h
    obtain rfl := Except.ok.inj h
    have hbound := Flow.bound_bindAll g (typable g root)
    have hover := Flow.over_seedRequests (Flow.leafFamily_atLevel g (Nat.le_refl (g.size + 1)))
      (fun _ _ => trivial) (fun _ _ => trivial) hrequests
    have hfits := Update.fits_ofRequests hbound.sound fun q hq => (hover q hq).1
    exact Flow.bounded_of_over (Update.run_apply hbound.sound hfits).2.1
      (hbound.over.result hbound.sound hover)

theorem seeded_not_diverged {allow : Bool} (h : seeded g root allow = .error fault) :
    fault.isDiverged = false := by
  rw [seeded_eq] at h
  cases hrequests : Flow.seedRequests g root allow (typable g root) with
  | error fault' =>
    rw [hrequests] at h
    obtain rfl := Except.error.inj h
    exact Flow.local_seedRequests g root allow _ fault' hrequests
  | ok requests =>
    rw [hrequests] at h
    cases h

/-- Coloring does not run in rounds. -/
theorem colorAll_not_diverged {nodes : List NodeId}
    (h : (Graph.colorAll t nodes).run g = (.error fault, g')) : fault.isDiverged = false := by
  rw [Graph.run_colorAll] at h
  obtain ⟨p', hp⟩ : ∃ p', (nodes.forM (Palette.color t)).run (Palette.ofGraph g) =
      (.error fault, p') := by
    rcases hrun : (nodes.forM (Palette.color t)).run (Palette.ofGraph g) with ⟨fault' | _, p'⟩
    · rw [hrun] at h
      obtain rfl := Except.error.inj (Run.outcome_eq.1 h).1
      exact ⟨p', rfl⟩
    · rw [hrun] at h
      cases (Run.outcome_eq.1 h).1
  rcases Palette.fault_of_forM_color hp with ⟨cause, rfl⟩ | ⟨n, -, kind, b, -, -, rfl⟩
  · rfl
  · rfl

/-- With as many rounds as there is room, the flow rules come to rest or fail by themselves. -/
theorem settled_not_diverged {ceiling : Nat} (ht : Flow.Bounded g t)
    (hceiling : t.room (allLeaves g) ≤ ceiling) (h : settled g root ceiling t = .error fault) :
    fault.isDiverged = false := by
  have hrule : ∀ r ∈ (Flow.rules g (Flow.classMethods g root)).map FlowRule.toRule,
      ∃ r' ∈ Flow.rules g (Flow.classMethods g root), r'.toRule = r := fun r hr => List.mem_map.1 hr
  obtain ⟨t', hrun⟩ := run_of_unsettled h
  refine Rule.fixpoint_not_diverged (I := Flow.Bounded g) (μ := BoundsTable.room (allLeaves g))
    ?_ ?_ ht hceiling hrun
  · intro r hr n _ t t' ht hfires
    obtain ⟨r, hr', rfl⟩ := hrule r hr
    exact ⟨Flow.bounded_of_fires hr' ht hfires, room_lt_of_fires hr' ht hfires⟩
  · intro r hr n _ t fault t' ht hfails
    obtain ⟨r, hr', rfl⟩ := hrule r hr
    have hfamily := Flow.leafFamily_atLevel g (k := Flow.level g t) (by unfold Flow.level; omega)
    obtain ⟨-, hasks⟩ := FlowRule.asks_of_fails ht.sound (fun requests hasks q hq =>
      (Flow.over_asks hfamily ht.leaves ht.literals trivial hr' hasks q hq).1) hfails
    exact Flow.local_asks hr' t n fault hasks

/-- For every graph there is a number of rounds from which on inference never goes past its
ceiling. -/
theorem converges (g : Graph) (root : NodeId) (allow : Bool) :
    ∃ N, ∀ ceiling ≥ N, ∀ rule node rounds,
      ((run root ceiling allow).run g).1 ≠ .error (.diverged rule node rounds) := by
  cases hseeds : seeded (withReturnSlots g root) root allow with
  | error fault =>
    refine ⟨0, fun ceiling _ rule node rounds h => ?_⟩
    rw [run_eq, hseeds] at h
    have hlocal := seeded_not_diverged hseeds
    obtain rfl := Except.error.inj h
    simp [Fault.isDiverged] at hlocal
  | ok t =>
    refine ⟨t.room (allLeaves (withReturnSlots g root)),
      fun ceiling hceiling rule node rounds h => ?_⟩
    rw [run_eq, hseeds] at h
    dsimp only at h
    rcases hsettled : settled (withReturnSlots g root) root ceiling t with fault | ⟨stats, t'⟩
    · rw [hsettled] at h
      have hlocal := settled_not_diverged (bounded_of_seeded hseeds) hceiling hsettled
      obtain rfl := Except.error.inj h
      simp [Fault.isDiverged] at hlocal
    · rw [hsettled] at h
      dsimp only at h
      rcases hcolor : (Graph.colorAll t' (typable (withReturnSlots g root) root)).run
        (withReturnSlots g root) with ⟨fault | colors, g'⟩
      · rw [hcolor] at h
        have hlocal := colorAll_not_diverged hcolor
        obtain rfl := Except.error.inj h
        simp [Fault.isDiverged] at hlocal
      · rw [hcolor] at h
        cases h

end Inference

end TypeFlow
