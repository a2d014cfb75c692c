import TypeFlow.Proofs.Inference.Outcome
import TypeFlow.Proofs.Program.Classes
import TypeFlow.Proofs.Rule.Fixpoint
/-!
# Tables at rest

On a resolved program the tables of an inference stay in order: sound, over the classes of the
program, with every node at its slot (`Tidy`). The table in which the rules come to rest is
`Settled` besides: no rule asks for a change. What is bound to a place then shows no more than the
place, and is permitted no more (`Flows`).
-/

namespace TypeFlow

namespace Inference

open TypeSet Program

variable {g : Graph} {root n place value : NodeId} {t t' : BoundsTable} {allow : Bool}

/-- A table in order: its sets are over the classes of the program, and nodes are bound as they
are before seeding. -/
structure Tidy (g : Graph) (root : NodeId) (t : BoundsTable) : Prop where
  sound : t.Sound
  leaves : t.Over (ClassLeaf g root)
  slot : ∀ n, t.slot? n = (Flow.bindAll g (typable g root)).slot? n

theorem Tidy.bound (h : Tidy g root t) (hn : g.Below root n) (hkind : (g.kind n).isTypable) :
    (t.slot? n).isSome := by
  rw [h.slot]
  exact Flow.isSome_slot?_bindAll (Graph.mem_reachable.2 ⟨hn, hkind⟩)

/-- Seeding leaves a table in order. -/
theorem tidy_of_seeded (hg : Resolved g root) (h : seeded g root allow = .ok t) :
    Tidy g root t := by
  rw [seeded_eq] at h
  cases hrequests : Flow.seedRequests g root allow (typable g root) with
  | error fault =>
    rw [hrequests] at h
    cases h
  | ok requests =>
    rw [hrequests] at h
    obtain rfl := Except.ok.inj h
    have hbound := Flow.bound_bindAll g (typable g root)
    have hover := Flow.over_seedRequests (leafFamily_classes hg)
      (fun n hn => (Graph.mem_reachable.1 hn).1) (fun n hn => hn) hrequests
    have hfits := Update.fits_ofRequests hbound.sound fun q hq => (hover q hq).1
    exact ⟨(Update.run_apply hbound.sound hfits).2.1, hbound.over.result hbound.sound hover,
      fun n => Update.slot?_result _ _ n⟩

/-- On a table in order, rules ask for sets over the classes of the program. -/
theorem Tidy.requestsOver (hg : Resolved g root) (ht : Tidy g root t) {methods : List NodeId}
    {r : FlowRule} (hr : r ∈ Flow.rules g methods) (hn : g.Below root n)
    {requests : List Request} (h : r.asks t n = .ok requests) :
    RequestsOver (ClassLeaf g root) requests :=
  Flow.over_asks (leafFamily_classes hg) ht.leaves (literalsOver ht.leaves) hn hr h

/-- Firings leave a table in order. -/
theorem Tidy.fires (hg : Resolved g root) (ht : Tidy g root t) {methods : List NodeId}
    {r : FlowRule} (hr : r ∈ Flow.rules g methods) (hn : g.Below root n)
    (h : Rule.Fires Flow.commit r.toRule n t t') : Tidy g root t' := by
  have hcanonical : ∀ requests, r.asks t n = .ok requests → ∀ q ∈ requests, q.Canonical :=
    fun requests hasks q hq => (ht.requestsOver hg hr hn hasks q hq).1
  obtain ⟨hsound, -, hslot⟩ := FlowRule.sound_of_fires ht.sound hcanonical h
  obtain ⟨-, requests, hasks, -, rfl⟩ := FlowRule.eq_result_of_fires ht.sound hcanonical h
  exact ⟨hsound, ht.leaves.result ht.sound (ht.requestsOver hg hr hn hasks),
    fun m => (hslot m).trans (ht.slot m)⟩

/-- A table in order at which no rule asks for a change. -/
structure Settled (g : Graph) (root : NodeId) (t : BoundsTable) : Prop extends Tidy g root t where
  quiet : ∀ r ∈ Flow.rules g (Flow.classMethods g root), ∀ n, g.Below root n → r.applies n →
    ∃ requests, r.asks t n = .ok requests ∧ ∀ q ∈ requests, q.changes t = false

/-- The rules come to rest in a settled table. -/
theorem settled_of_ok (hg : Resolved g root) {ceiling : Nat} {stats : Stats}
    (ht : Tidy g root t) (h : settled g root ceiling t = .ok (stats, t')) :
    Settled g root t' := by
  have hrun := run_of_settled h
  have htidy : Tidy g root t' := by
    refine Rule.invariant_of_fixpoint (fun r hr n hn s s' hs hfires => ?_) ht hrun
    obtain ⟨r', hr', rfl⟩ := List.mem_map.1 hr
    exact hs.fires hg hr' (Graph.mem_reachable.1 hn).1 hfires
  refine ⟨htidy, fun r hr n hn happlies => ?_⟩
  exact FlowRule.fire?_eq_none.1 (Rule.quiet_of_fixpoint hrun r.toRule (List.mem_map_of_mem hr) n
    (Graph.mem_reachable.2 ⟨hn, rfl⟩)) happlies

/-- From seeds the rules come to rest in a settled table. -/
theorem settled_of_seeded (hg : Resolved g root) {ceiling : Nat} {stats : Stats}
    (hseeds : seeded g root allow = .ok t) (h : settled g root ceiling t = .ok (stats, t')) :
    Settled g root t' :=
  settled_of_ok hg (tidy_of_seeded hg hseeds) h

/-! ## What flows -/

/-- A place shows all that a value shows, and permits all that it permits. -/
structure Flows (t : BoundsTable) (value place : NodeId) : Prop where
  shown : (t.shown value).Sub (t.shown place)
  permitted : (t.permitted value).Within (t.permitted place)

section Requests

variable {requests : List Request}

/-- A widening that changes nothing. -/
theorem Settled.sub_of_widen (ht : Settled g root t) {a : TypeSet} (ha : a.Canonical)
    (hplace : (t.slot? place).isSome) (hq : ∀ q ∈ requests, q.changes t = false)
    (hmem : .widen place a ∈ requests) : a.Sub (t.shown place) := by
  obtain ⟨s, hs⟩ := Option.isSome_iff_exists.1 hplace
  exact Request.sub_shown_of_widen ht.sound hs ha (hq _ hmem)

/-- A narrowing that changes nothing. -/
theorem Settled.within_of_narrow (ht : Settled g root t) {a : TypeSet} (ha : a.Canonical)
    (hvalue : (t.slot? value).isSome) (hq : ∀ q ∈ requests, q.changes t = false)
    (hmem : .narrow value a ∈ requests) : (t.permitted value).Within a := by
  obtain ⟨s, hs⟩ := Option.isSome_iff_exists.1 hvalue
  exact Request.permitted_within_of_narrow ht.sound ha (hq _ hmem) hs

/-- What is shown anywhere may be asked for where it is not empty. -/
theorem Settled.sub_of_yieldIfAny (ht : Settled g root t) (hplace : (t.slot? place).isSome)
    (hq : ∀ q ∈ requests, q.changes t = false)
    (hmem : ∀ q ∈ Flow.yieldIfAny place (t.shown value), q ∈ requests) :
    (t.shown value).Sub (t.shown place) := by
  by_cases he : t.shown value = .empty
  · rw [he]
    exact empty_sub _
  · refine ht.sub_of_widen (ht.sound.canonical_shown value) hplace hq (hmem _ ?_)
    rw [Flow.yieldIfAny, if_neg he]
    exact List.mem_singleton_self _

end Requests

/-- Values are permitted no more than the places they are bound to. -/
theorem Settled.permitted_bound (ht : Settled g root t) (hn : g.Below root n)
    (h : Flow.bound? g n = some (place, value)) (hvalue : (t.slot? value).isSome) :
    (t.permitted value).Within (t.permitted place) := by
  obtain ⟨requests, hasks, hq⟩ :=
    ht.quiet (Flow.acceptRule g) (by simp [Flow.rules]) n hn (by simp [Flow.acceptRule, h])
  simp only [Flow.acceptRule, h] at hasks
  obtain rfl := Except.ok.inj hasks
  exact ht.within_of_narrow (ht.sound.canonical_permitted place) hvalue hq
    (List.mem_singleton_self _)

/-- Assigned values flow into their places. -/
theorem Settled.flows_assignment (ht : Settled g root t) (hn : g.Below root n)
    (h : Flow.assignment? g n = some (place, value)) (hplace : (t.slot? place).isSome)
    (hvalue : (t.slot? value).isSome) : Flows t value place where
  shown := by
    by_cases he : t.shown value = .empty
    · rw [he]
      exact empty_sub _
    · obtain ⟨requests, hasks, hq⟩ :=
        ht.quiet (Flow.assignRule g) (by simp [Flow.rules]) n hn (by simp [Flow.assignRule, h])
      simp only [Flow.assignRule, h, if_neg he] at hasks
      obtain ⟨fields, -, hasks⟩ := Run.bind_eq_ok.1 hasks
      obtain rfl := Run.pure_eq_ok.1 hasks
      exact ht.sub_of_widen (ht.sound.canonical_shown value) hplace hq List.mem_cons_self
  permitted := ht.permitted_bound hn (by simp [Flow.bound?, h]) hvalue

/-- Returned values flow into the slot of their function. -/
theorem Settled.flows_returned (ht : Settled g root t) (hn : g.Below root n)
    (h : Flow.returned? g n = some (place, value)) (hplace : (t.slot? place).isSome)
    (hvalue : (t.slot? value).isSome) : Flows t value place where
  shown := by
    obtain ⟨requests, hasks, hq⟩ :=
      ht.quiet (Flow.returnRule g) (by simp [Flow.rules]) n hn (by simp [Flow.returnRule, h])
    simp only [Flow.returnRule, h] at hasks
    obtain rfl := Except.ok.inj hasks
    exact ht.sub_of_yieldIfAny hplace hq fun _ hq => hq
  permitted := by
    refine ht.permitted_bound hn ?_ hvalue
    have hkind : g.kind n = .stmt .ret := by
      by_contra hne
      simp [Flow.returned?, hne] at h
    simp [Flow.bound?, Flow.assignment?, hkind, h]

/-- Arguments flow into the places that a call binds them to. -/
theorem Settled.flows_args (ht : Settled g root t) (hn : g.Below root n)
    {lists : List (List NodeId)} (happlies : Flow.bindsArgs g n)
    (hbinding : Flow.callBinding g t n = .ok (.places lists)) {places : List NodeId}
    (hplaces : places ∈ lists) (hpair : (place, value) ∈ places.zip (g.items n))
    (hplace : (t.slot? place).isSome) (hvalue : (t.slot? value).isSome) : Flows t value place := by
  obtain ⟨requests, hasks, hq⟩ := ht.quiet (Flow.callArgsRule g (Flow.classMethods g root))
    (by simp [Flow.rules]) n hn happlies
  obtain ⟨binding, hb, hasks⟩ := Run.bind_eq_ok.1 hasks
  obtain rfl := Except.ok.inj (hbinding.symm.trans hb)
  obtain rfl := Run.pure_eq_ok.1 hasks
  have hmem : ∀ q ∈ Flow.bindArg t place value,
      q ∈ lists.flatMap fun places => Flow.pairArgs (Flow.bindArg t) places (g.items n) :=
    fun q hq => List.mem_flatMap.2 ⟨places, hplaces, List.mem_flatMap.2 ⟨(place, value), hpair, hq⟩⟩
  exact ⟨ht.sub_of_yieldIfAny hplace hq fun q hq => hmem q (List.mem_append_left _ hq),
    ht.within_of_narrow (ht.sound.canonical_permitted place) hvalue hq
      (hmem _ (List.mem_append_right _ (List.mem_singleton_self _)))⟩

end Inference

end TypeFlow
