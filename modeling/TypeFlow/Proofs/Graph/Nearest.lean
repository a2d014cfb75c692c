import Mathlib.Order.Lattice.Nat
import TypeFlow.Proofs.Graph.Found
import TypeFlow.Proofs.Graph.Mutation
import TypeFlow.Proofs.Graph.Rooted
/-!
# Near before far

`Graph.ascend` keeps a queue and meets a node when it queues it. A run through a queue to its end is
a `Rise`. The list of what it met is led by its own order (`Rise.led`): with the start, what a
beginning of the list leads to is again a beginning of the list. So the nodes that a number of steps
suffices for are a beginning of it too (`Led.within`), and near ones come before far ones.

For an upward search a number of steps is the length of a `Graph.Route` down to the start, and the
least such length is the `Graph.distance`. `collect_up` says which nodes an upward search finds and
in which order, and that `Graph.nearestAncestor?` answers with one at the least distance.
-/

namespace TypeFlow

/-! ## Running through a queue -/

/-- A run through a queue from the front: a node that leaves the queue is done, and those next to it
that were not met are queued. It ends with all that was met, in that order. -/
inductive Rise (next : NodeId → List NodeId) : List NodeId → List NodeId → List NodeId → Prop
  | done (done : List NodeId) : Rise next done [] done
  | step {done queue order : List NodeId} {n : NodeId}
      (rest : Rise next (done ++ [n]) (queue ++ Graph.unmet (done ++ n :: queue) (next n)) order) :
    Rise next done (n :: queue) order

/-- With its start, what a beginning of a list leads to is a beginning of the list. -/
def Led (next : NodeId → List NodeId) (start : NodeId) (order : List NodeId) : Prop :=
  ∀ done, done <+: order →
    ∃ met, met <+: order ∧ ∀ m, m ∈ met ↔ m = start ∨ ∃ n ∈ done, m ∈ next n

/-- What can be come to from a start in so many steps or fewer. -/
def Within (next : NodeId → List NodeId) (start : NodeId) : Nat → NodeId → Prop
  | 0, m => m = start
  | k + 1, m => m = start ∨ ∃ n, Within next start k n ∧ m ∈ next n

section Queue

variable {next : NodeId → List NodeId} {start n : NodeId} {done queue order near : List NodeId}

/-- A step adds to what was met before. -/
theorem append_queue (done queue new : List NodeId) (n : NodeId) :
    done ++ [n] ++ (queue ++ new) = done ++ n :: queue ++ new := by simp

namespace Rise

/-- What is done and what waits stays in front. -/
theorem isPrefix (h : Rise next done queue order) : done ++ queue <+: order := by
  induction h with
  | done done => rw [List.append_nil]
  | step _ ih =>
    rw [append_queue] at ih
    exact (List.prefix_append _ _).trans ih

theorem nodup (h : Rise next done queue order) (hmet : (done ++ queue).Nodup) : order.Nodup := by
  induction h with
  | done done => rwa [List.append_nil] at hmet
  | step _ ih =>
    refine ih ?_
    rw [append_queue]
    exact Graph.nodup_append_unmet hmet

/-- What holds of all that is met, and passes from a node to those next to it, holds of all that is
met in the end. -/
theorem sound {P : NodeId → Prop} (hP : ∀ n, P n → ∀ m ∈ next n, P m)
    (h : Rise next done queue order) (hmet : ∀ n ∈ done ++ queue, P n) : ∀ n ∈ order, P n := by
  induction h with
  | done done => rwa [List.append_nil] at hmet
  | @step done queue order n _ ih =>
    refine ih ?_
    rw [append_queue]
    exact Graph.forall_mem_append_unmet hmet (hP n (hmet n (by simp)))

/-- A run that met the start and what the done nodes lead to keeps on doing so. -/
theorem led (h : Rise next done queue order)
    (hmet : ∀ m, m ∈ done ++ queue ↔ m = start ∨ ∃ n ∈ done, m ∈ next n) :
    ∀ {part}, done ++ part <+: order →
      ∃ met, met <+: order ∧ ∀ m, m ∈ met ↔ m = start ∨ ∃ n ∈ done ++ part, m ∈ next n := by
  induction h with
  | done done =>
    intro part hpart
    obtain rfl : part = [] := List.length_eq_zero_iff.1 (by simpa using hpart.length_le)
    rw [List.append_nil] at hmet ⊢
    exact ⟨done, List.prefix_rfl, hmet⟩
  | @step done queue order n rest ih =>
    intro part hpart
    cases part with
    | nil =>
      rw [List.append_nil]
      exact ⟨done ++ n :: queue, rest.step.isPrefix, hmet⟩
    | cons k part =>
      -- the node that is done next is the one in front of the queue
      obtain rfl : k = n := by
        obtain ⟨after, hafter⟩ := hpart
        obtain ⟨after', rfl⟩ := rest.step.isPrefix
        simp only [List.append_assoc, List.cons_append, List.append_cancel_left_eq] at hafter
        exact (List.cons.inj hafter).1
      rw [List.append_cons] at hpart ⊢
      refine ih (fun m => ?_) hpart
      rw [append_queue, Graph.mem_append_unmet, hmet, or_assoc]
      simp only [List.mem_append, List.mem_singleton, or_and_right, exists_or, exists_eq_left]

/-- A run from a start is led by its order. -/
theorem led_start (h : Rise next [] [start] order) : Led next start order :=
  fun _ hdone => h.led (by simp) hdone

end Rise

/-! ## Steps from the start -/

theorem Led.within (h : Led next start order) :
    ∀ k, ∃ near, near <+: order ∧ ∀ m, m ∈ near ↔ Within next start k m
  | 0 => by
    obtain ⟨met, hprefix, hmet⟩ := h [] List.nil_prefix
    exact ⟨met, hprefix, fun m => by simp [hmet, Within]⟩
  | k + 1 => by
    obtain ⟨near, hnear, hmem⟩ := Led.within h k
    obtain ⟨met, hprefix, hmet⟩ := h near hnear
    exact ⟨met, hprefix, fun m => by simp only [hmet, hmem, Within]⟩

/-- A member of a beginning has only members of it before itself. -/
theorem pairwise_of_isPrefix (horder : order.Nodup) (h : near <+: order) :
    order.Pairwise fun n m => m ∈ near → n ∈ near := by
  obtain ⟨far, rfl⟩ := h
  have hdisjoint := (List.nodup_append.1 horder).2.2
  refine List.pairwise_append.2 ⟨?_, ?_, fun n hn _ _ _ => hn⟩
  · exact List.pairwise_of_forall_mem_list fun n hn _ _ _ => hn
  · exact List.pairwise_of_forall_mem_list fun _ _ m hm hnear =>
      absurd rfl (hdisjoint m hnear m hm)

/-- Whatever number of steps suffices for a node suffices for those before it. -/
theorem Led.pairwise (h : Led next start order) (horder : order.Nodup) :
    order.Pairwise fun n m => ∀ k, Within next start k m → Within next start k n := by
  refine List.pairwise_iff_forall_sublist.2 fun {n m} hnm k => ?_
  obtain ⟨near, hprefix, hnear⟩ := h.within k
  have hpair := List.pairwise_iff_forall_sublist.1 (pairwise_of_isPrefix horder hprefix) hnm
  rwa [hnear, hnear] at hpair

/-- A run from a start lists what can be come to. -/
theorem Rise.mem_iff (h : Rise next [] [start] order) : n ∈ order ↔ ∃ k, Within next start k n := by
  constructor
  · refine h.sound (P := fun n => ∃ k, Within next start k n) (fun n hn m hm => ?_) ?_ n
    · obtain ⟨k, hk⟩ := hn
      exact ⟨k + 1, Or.inr ⟨n, hk, hm⟩⟩
    · exact List.forall_mem_singleton.2 ⟨0, rfl⟩
  · rintro ⟨k, hk⟩
    obtain ⟨near, hprefix, hnear⟩ := h.led_start.within k
    exact hprefix.subset ((hnear n).2 hk)

end Queue

namespace Graph

variable {g : Graph} {s : Search} {n m start : NodeId} {done queue order : List NodeId}

/-! ## Upward searches as runs -/

theorem mem_above (hg : g.WellKept) : m ∈ g.above s n ↔
    s.expands n ∧ ∃ r, s.follow r ∧ ⟨r, n⟩ ∈ g.outgoing m := by
  unfold above
  split
  · next hn =>
    simp only [hn, true_and, List.mem_map, List.mem_filter, hg.mem_iff]
    constructor
    · rintro ⟨⟨r, k⟩, ⟨he, hr⟩, rfl⟩
      exact ⟨r, hr, he⟩
    · rintro ⟨r, hr, he⟩
      exact ⟨⟨r, m⟩, ⟨he, hr⟩, rfl⟩
  · next hn => simp [hn]

theorem has_of_mem_above (hg : g.WellKept) (h : m ∈ g.above s n) : g.has m := by
  obtain ⟨-, r, -, he⟩ := (mem_above hg).1 h
  exact hg.has_source he

/-- An upward search meets the start, and no more nodes than the graph has. -/
theorem length_le_of_met {l : List NodeId} (hl : l.Nodup) (hmet : ∀ n ∈ l, n = start ∨ g.has n) :
    l.length ≤ g.size + 1 := by
  have hothers : (l.erase start).length ≤ g.size := length_le_size (hl.erase start) fun n hn =>
    (hmet n (List.mem_of_mem_erase hn)).resolve_left (hl.mem_erase_iff.1 hn).1
  rw [List.length_erase] at hothers
  split at hothers <;> omega

/-- With a step for each node that is not done, an upward search runs through its queue. -/
theorem rise_ascend (hg : g.WellKept) : ∀ {steps : Nat} {done queue : List NodeId},
    (done ++ queue).Nodup → (∀ n ∈ done ++ queue, n = s.start ∨ g.has n) →
      g.size + 1 ≤ steps + done.length →
        Rise (g.above s) done queue (g.ascend s steps (done ++ queue) queue)
  | 0, done, queue, hnodup, hmet, hsteps => by
    have hlength := length_le_of_met hnodup hmet
    obtain rfl : queue = [] := List.length_eq_zero_iff.1 (by simp at hlength; omega)
    rw [List.append_nil]
    exact .done done
  | _ + 1, done, [], _, _, _ => by
    rw [List.append_nil]
    exact .done done
  | steps + 1, done, n :: queue, hnodup, hmet, hsteps => by
    rw [ascend_cons, ← append_queue]
    refine .step (rise_ascend hg ?_ ?_ ?_)
    · rw [append_queue]
      exact nodup_append_unmet hnodup
    · rw [append_queue]
      exact forall_mem_append_unmet hmet fun m hm => Or.inr (has_of_mem_above hg hm)
    · rw [List.length_append, List.length_singleton]
      omega

theorem rise_from_start (hg : g.WellKept) (hs : s.direction = .up) :
    Rise (g.above s) [] [s.start] (g.order s) := by
  rw [order, hs]
  exact rise_ascend hg (List.nodup_singleton _) (List.forall_mem_singleton.2 (Or.inl rfl)) (by simp)

/-- An upward search that stops early goes the way of one that does not. -/
theorem ascendUntil_eq (p stop : NodeId → Bool) (h : Rise (g.above s) done queue order) :
    ∀ steps : Nat, order.length ≤ steps + done.length → ∃ rest, order = done ++ rest ∧
      g.ascendUntil s p stop steps (done ++ queue) queue =
        takeThrough stop (rest.filter fun n => s.reports n && p n) := by
  induction h with
  | done done =>
    intro steps _
    refine ⟨[], (List.append_nil done).symm, ?_⟩
    cases steps <;> rfl
  | @step done queue order n rest ih =>
    intro steps hsteps
    have hlength := rest.step.isPrefix.length_le
    simp only [List.length_append, List.length_cons] at hlength
    obtain ⟨steps, rfl⟩ : ∃ k, steps = k + 1 := Nat.exists_eq_add_one.2 (by omega)
    obtain ⟨after, rfl, huntil⟩ := ih steps (by simp at hsteps ⊢; omega)
    refine ⟨n :: after, by simp, ?_⟩
    rw [append_queue] at huntil
    rw [ascendUntil, enqueue_eq, huntil, List.filter_cons]
    split
    · rw [takeThrough]
    · rfl

theorem collectUntil_up (hg : g.WellKept) (hs : s.direction = .up) (p stop : NodeId → Bool) :
    g.collectUntil s p stop = takeThrough stop (g.collect s p) := by
  have hrise : Rise (g.above s) [] [s.start] (g.order s) := rise_from_start hg hs
  have hlength : (g.order s).length ≤ g.size + 1 :=
    length_le_of_met (hrise.nodup (List.nodup_singleton _)) <|
      hrise.sound (fun _ _ m hm => Or.inr (has_of_mem_above hg hm))
        (List.forall_mem_singleton.2 (Or.inl rfl))
  obtain ⟨rest, horder, huntil⟩ := ascendUntil_eq p stop hrise (g.size + 1) hlength
  rw [collectUntil, hs, collect_eq, horder]
  exact huntil

/-! ## Routes to the start -/

/-- A way down to the start of a search: so many followed edges, with no pruned node between. -/
inductive Route (g : Graph) (s : Search) : Nat → NodeId → Prop
  | last {n : NodeId} {r : Role} (he : ⟨r, s.start⟩ ∈ g.outgoing n) (hr : s.follow r) :
    Route g s 1 n
  | cons {k : Nat} {n m : NodeId} {r : Role} (he : ⟨r, m⟩ ∈ g.outgoing n) (hr : s.follow r)
      (hm : s.prune m = false) (rest : Route g s k m) : Route g s (k + 1) n

/-- The length of the shortest way down to the start of a search. -/
noncomputable def distance (g : Graph) (s : Search) (n : NodeId) : Nat := sInf {k | g.Route s k n}

theorem Route.within (hg : g.WellKept) {k : Nat} (h : g.Route s k n) :
    Within (g.above s) s.start k n := by
  induction h with
  | last he hr =>
    exact Or.inr ⟨s.start, rfl, (mem_above hg).2 ⟨by simp [Search.expands], _, hr, he⟩⟩
  | cons he hr hm _ ih =>
    exact Or.inr ⟨_, ih, (mem_above hg).2 ⟨by simp [Search.expands, hm], _, hr, he⟩⟩

theorem exists_route_of_within (hg : g.WellKept) : ∀ {k : Nat} {n : NodeId},
    Within (g.above s) s.start k n → n ≠ s.start → ∃ j ≤ k, g.Route s j n
  | 0, _, h, hn => absurd h hn
  | k + 1, n, h, hn => by
    obtain ⟨m, hm, hnm⟩ := h.resolve_left hn
    obtain ⟨hexpands, r, hr, he⟩ := (mem_above hg).1 hnm
    by_cases hstart : m = s.start
    · exact ⟨1, by omega, .last (hstart ▸ he) hr⟩
    · obtain ⟨j, hj, hroute⟩ := exists_route_of_within hg hm hstart
      have hprune : s.prune m = false := by simpa [Search.expands, hstart] using hexpands
      exact ⟨j + 1, by omega, .cons he hr hprune hroute⟩

/-- A node that is come to in no more steps than another one is no farther away. -/
theorem distance_le_of_within (hg : g.WellKept) (hn : n ≠ s.start) (hm : ∃ k, g.Route s k m)
    (h : ∀ k, Within (g.above s) s.start k m → Within (g.above s) s.start k n) :
    g.distance s n ≤ g.distance s m := by
  have hshortest : g.Route s (g.distance s m) m := Nat.sInf_mem hm
  obtain ⟨j, hj, hroute⟩ := exists_route_of_within hg (h _ (hshortest.within hg)) hn
  exact (Nat.sInf_le hroute).trans hj

/-- The nodes with a route of structural edges are those that the start lies below. -/
theorem exists_route_up (hn : n ≠ start) : (∃ k, g.Route (.up start) k n) ↔ g.Below n start := by
  constructor
  · rintro ⟨k, hroute⟩
    clear hn
    induction hroute with
    | last he hr => exact Below.root.child he hr
    | cons he hr _ _ ih => exact (Below.root.child he hr).trans ih
  · intro h
    -- the end of the way down is moved along it, from the start to the node itself
    have hback : ∀ m, g.Below n m → m = start ∨ (∃ k, g.Route (.up start) k m) →
        n = start ∨ ∃ k, g.Route (.up start) k n := by
      intro m hm
      induction hm with
      | root => exact id
      | @child m e _ he hs ih =>
        rintro (rfl | ⟨k, hroute⟩)
        · exact ih (Or.inr ⟨1, .last he hs⟩)
        · exact ih (Or.inr ⟨k + 1, .cons he hs rfl hroute⟩)
    exact (hback start h (Or.inl rfl)).resolve_left hn

/-! ## What is found -/

section Up

variable (hg : g.WellKept) (hs : s.direction = .up) (hstart : s.includeStart = false)
  (p : NodeId → Bool)

include hg hs hstart

theorem mem_collect_up : n ∈ g.collect s p ↔ n ≠ s.start ∧ p n ∧ ∃ k, g.Route s k n := by
  rw [collect_eq, List.mem_filter, (rise_from_start hg hs).mem_iff]
  simp only [Search.reports, hstart, Bool.or_false, Bool.and_eq_true, decide_eq_true_eq]
  constructor
  · rintro ⟨⟨k, hk⟩, hn, hp⟩
    obtain ⟨j, -, hroute⟩ := exists_route_of_within hg hk hn
    exact ⟨hn, hp, j, hroute⟩
  · rintro ⟨hn, hp, k, hroute⟩
    exact ⟨⟨k, hroute.within hg⟩, hn, hp⟩

theorem pairwise_collect_up :
    (g.collect s p).Pairwise fun n m => g.distance s n ≤ g.distance s m := by
  have hrise := rise_from_start hg hs
  have horder := hrise.led_start.pairwise (hrise.nodup (List.nodup_singleton _))
  have hfound := horder.filter fun n => s.reports n && p n
  rw [← collect_eq] at hfound
  refine hfound.imp_of_mem fun hn hm hnm => ?_
  exact distance_le_of_within hg ((mem_collect_up hg hs hstart p).1 hn).1
    ((mem_collect_up hg hs hstart p).1 hm).2.2 hnm

end Up

/-- An upward search lists the matching nodes that have a route to its start, each once and near
ones before far ones. The nearest ancestor is found if there is any, and it is one at the least
distance; the search for it stops there. -/
theorem collect_up (hg : g.WellKept) (start : NodeId) (follow : Role → Bool)
    (prune p : NodeId → Bool) :
    let s : Search := ⟨.up, start, false, follow, prune⟩
    (∀ n, n ∈ g.collect s p ↔ n ≠ start ∧ p n ∧ ∃ k, g.Route s k n) ∧
      (g.collect s p).Nodup ∧
        (g.collect s p).Pairwise (fun n m => g.distance s n ≤ g.distance s m) ∧
          (g.collectUntil (.up start) p fun _ => true).head? = g.nearestAncestor? start p ∧
            (g.nearestAncestor? start p = none ↔
              ∀ n, n ≠ start → g.Below n start → p n = false) ∧
              ∀ n, g.nearestAncestor? start p = some n → n ≠ start ∧ p n ∧ g.Below n start ∧
                ∀ m, m ≠ start → p m → g.Below m start →
                  g.distance (.up start) n ≤ g.distance (.up start) m := by
  intro s
  have hnearest : g.nearestAncestor? start p = (g.collect (.up start) p).head? := first?_eq _ _ _
  have hmem : ∀ {n}, n ∈ g.collect (.up start) p ↔ n ≠ start ∧ p n ∧ g.Below n start := by
    intro n
    rw [mem_collect_up hg rfl rfl p]
    exact and_congr_right fun hn => and_congr_right fun _ => exists_route_up hn
  refine ⟨fun n => mem_collect_up hg rfl rfl p, ?_, pairwise_collect_up hg rfl rfl p, ?_, ?_, ?_⟩
  · rw [collect_eq]
    exact ((rise_from_start hg rfl).nodup (List.nodup_singleton _)).filter _
  · rw [collectUntil_up hg rfl, head?_takeThrough, hnearest]
  · rw [hnearest, List.head?_eq_none_iff, List.eq_nil_iff_forall_not_mem]
    refine forall_congr' fun n => ?_
    rw [hmem, ← Bool.not_eq_true]
    exact ⟨fun h hn hbelow hp => h ⟨hn, hp, hbelow⟩, fun h ⟨hn, hp, hbelow⟩ => h hn hbelow hp⟩
  · intro n hn
    obtain ⟨rest, hrest⟩ := List.head?_eq_some_iff.1 (hnearest.symm.trans hn)
    obtain ⟨hne, hp, hbelow⟩ := hmem.1 (hrest ▸ List.mem_cons_self)
    refine ⟨hne, hp, hbelow, fun m hm hpm hmbelow => ?_⟩
    have hpair := pairwise_collect_up hg (s := .up start) rfl rfl p
    have hm := hmem.2 ⟨hm, hpm, hmbelow⟩
    rw [hrest] at hpair hm
    rcases List.mem_cons.1 hm with rfl | hm
    · exact Nat.le_refl _
    · exact List.rel_of_pairwise_cons hpair hm

/-- A node with two parents, one of them twice, an ancestor that it is itself an operand of, and
another one above both parents. -/
def wovenChanges : List Change :=
  [.single (.add (.expr (.unary .not)) .none), .single (.add (.expr (.binary .add)) .none),
    .single (.add (.expr (.unary .not)) .none), .single (.add (.expr (.unary .not)) .none),
    .single (.add (.expr (.binary .add)) .none),
    .single (.setChild ⟨1⟩ .left ⟨0⟩), .single (.setChild ⟨1⟩ .right ⟨0⟩),
    .single (.setChild ⟨2⟩ .operand ⟨1⟩), .single (.setChild ⟨0⟩ .operand ⟨2⟩),
    .single (.setChild ⟨3⟩ .operand ⟨0⟩), .single (.setChild ⟨4⟩ .left ⟨1⟩),
    .single (.setChild ⟨4⟩ .right ⟨3⟩)]

/-- The graph that these changes make. -/
def woven : Graph := wovenChanges.foldl change empty

theorem collect_up_woven : woven.WellKept ∧
    let s : Search := ⟨.up, ⟨0⟩, false, Role.isStructural, (· = ⟨1⟩)⟩
    let p : NodeId → Bool := (· ≠ ⟨1⟩)
    (∀ n, n ∈ woven.collect s p ↔ n ≠ ⟨0⟩ ∧ p n ∧ ∃ k, woven.Route s k n) ∧
      (woven.collect s p).Nodup ∧
        (woven.collect s p).Pairwise (fun n m => woven.distance s n ≤ woven.distance s m) ∧
          (woven.collectUntil (.up ⟨0⟩) p fun _ => true).head? = woven.nearestAncestor? ⟨0⟩ p ∧
            (woven.nearestAncestor? ⟨0⟩ p = none ↔
              ∀ n, n ≠ ⟨0⟩ → woven.Below n ⟨0⟩ → p n = false) ∧
              ∀ n, woven.nearestAncestor? ⟨0⟩ p = some n → n ≠ ⟨0⟩ ∧ p n ∧ woven.Below n ⟨0⟩ ∧
                ∀ m, m ≠ ⟨0⟩ → p m → woven.Below m ⟨0⟩ →
                  woven.distance (.up ⟨0⟩) n ≤ woven.distance (.up ⟨0⟩) m := by
  have hkept : woven.WellKept := wellKept_foldl_change wovenChanges wellKept_empty (by decide)
  exact ⟨hkept, collect_up hkept ⟨0⟩ Role.isStructural (· = ⟨1⟩) (· ≠ ⟨1⟩)⟩

/-- What is above a pruned node is found only if there is another way. -/
example : woven.collect ⟨.up, ⟨0⟩, false, Role.isStructural, (· = ⟨1⟩)⟩ (fun _ => true) =
    [⟨1⟩, ⟨3⟩, ⟨4⟩] := by decide +kernel

end Graph

end TypeFlow
