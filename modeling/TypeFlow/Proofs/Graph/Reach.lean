import Mathlib.Algebra.BigOperators.Group.Finset.Basic
import Mathlib.Algebra.Order.BigOperators.Group.Finset
import TypeFlow.Graph.Search
import TypeFlow.Proofs.Graph.Records
/-!
# What a search reaches

A downward search has steps for every edge of the graph, so that it never stops early: it runs
through a stack as `Walk` says, without a count (`walk_visits`). A walk lists each node once
(`Walk.nodup`), and it lists what hangs below its stack (`Walk.closed`, `Walk.sound`). For
`Graph.reachable` that is what lies `Below` the root (`mem_reachable`). An upward search finds
nothing that is not above its start (`nearestAncestor?_sound`).
-/

namespace TypeFlow

/-! ## Walks -/

/-- A walk through a stack from the top: a node that was seen is skipped, and another one is
replaced by those below it. It ends with the nodes in the order in which they were seen. -/
inductive Walk (next : NodeId → List NodeId) : List NodeId → List NodeId → List NodeId → Prop
  | done (seen : List NodeId) : Walk next seen [] seen.reverse
  | skip {seen stack out : List NodeId} {n : NodeId} (h : n ∈ seen)
      (rest : Walk next seen stack out) : Walk next seen (n :: stack) out
  | visit {seen stack out : List NodeId} {n : NodeId} (h : n ∉ seen)
      (rest : Walk next (n :: seen) (next n ++ stack) out) : Walk next seen (n :: stack) out

namespace Walk

variable {next : NodeId → List NodeId} {seen stack out out' : List NodeId} {n m : NodeId}

/-- A walk has one end. -/
theorem functional (h : Walk next seen stack out) (h' : Walk next seen stack out') :
    out = out' := by
  induction h with
  | done seen =>
    cases h'
    rfl
  | skip hn _ ih =>
    cases h' with
    | skip _ rest => exact ih rest
    | visit hn' _ => exact absurd hn hn'
  | visit hn _ ih =>
    cases h' with
    | skip hn' _ => exact absurd hn' hn
    | visit _ rest => exact ih rest

theorem nodup (h : Walk next seen stack out) (hseen : seen.Nodup) : out.Nodup := by
  induction h with
  | done seen => exact List.nodup_reverse.2 hseen
  | skip _ _ ih => exact ih hseen
  | visit hn _ ih => exact ih (List.nodup_cons.2 ⟨hn, hseen⟩)

/-- What is seen or waits is listed. -/
theorem mem (h : Walk next seen stack out) : n ∈ seen ∨ n ∈ stack → n ∈ out := by
  induction h with
  | done seen => simp
  | @skip seen stack out m hm _ ih =>
    rintro (hn | hn)
    · exact ih (Or.inl hn)
    · rcases List.mem_cons.1 hn with rfl | hn
      · exact ih (Or.inl hm)
      · exact ih (Or.inr hn)
  | @visit seen stack out m hm _ ih =>
    rintro (hn | hn)
    · exact ih (Or.inl (List.mem_cons_of_mem m hn))
    · rcases List.mem_cons.1 hn with rfl | hn
      · exact ih (Or.inl List.mem_cons_self)
      · exact ih (Or.inr (List.mem_append_right _ hn))

/-- What holds of all that is seen or waits, and passes from a node to those below it, holds of
all that is listed. -/
theorem sound {P : NodeId → Prop} (hP : ∀ n, P n → ∀ m ∈ next n, P m)
    (h : Walk next seen stack out) (hseen : ∀ n ∈ seen, P n) (hstack : ∀ n ∈ stack, P n) :
    ∀ n ∈ out, P n := by
  induction h with
  | done seen => simpa using hseen
  | skip _ _ ih => exact ih hseen fun n hn => hstack n (List.mem_cons_of_mem _ hn)
  | @visit seen stack out m _ _ ih =>
    have hm : P m := hstack m List.mem_cons_self
    refine ih (List.forall_mem_cons.2 ⟨hm, hseen⟩) fun n hn => ?_
    rcases List.mem_append.1 hn with hn | hn
    · exact hP m hm n hn
    · exact hstack n (List.mem_cons_of_mem _ hn)

/-- The listed nodes are closed under `next`, if those seen before are up to the stack. -/
theorem closed (h : Walk next seen stack out)
    (hseen : ∀ n ∈ seen, ∀ m ∈ next n, m ∈ seen ∨ m ∈ stack) :
    ∀ n ∈ out, ∀ m ∈ next n, m ∈ out := by
  induction h with
  | done seen => simpa using hseen
  | @skip seen stack out k hk _ ih =>
    refine ih fun n hn m hm => ?_
    rcases hseen n hn m hm with h | h
    · exact Or.inl h
    · rcases List.mem_cons.1 h with rfl | h
      · exact Or.inl hk
      · exact Or.inr h
  | @visit seen stack out k _ _ ih =>
    refine ih fun n hn m hm => ?_
    rcases List.mem_cons.1 hn with rfl | hn
    · exact Or.inr (List.mem_append_left _ hm)
    · rcases hseen n hn m hm with h | h
      · exact Or.inl (List.mem_cons_of_mem _ h)
      · rcases List.mem_cons.1 h with rfl | h
        · exact Or.inl List.mem_cons_self
        · exact Or.inr (List.mem_append_right _ h)

/-- Nodes that no other node leads to drop out of a walk: what is left is a walk by itself. -/
theorem filter {P : NodeId → Prop} {p : NodeId → Bool} (hP : ∀ n, P n → ∀ m ∈ next n, P m)
    (hinner : ∀ n, P n → p n = false → ∀ m ∈ next n, p m = false)
    (h : Walk next seen stack out) (hstack : ∀ n ∈ stack, P n) :
    Walk (fun n => (next n).filter p) (seen.filter p) (stack.filter p) (out.filter p) := by
  induction h with
  | done seen =>
    rw [List.filter_reverse]
    exact .done _
  | @skip seen stack out n hn _ ih =>
    have ih := ih fun m hm => hstack m (List.mem_cons_of_mem _ hm)
    rw [List.filter_cons]
    split
    · next hp => exact .skip (List.mem_filter.2 ⟨hn, hp⟩) ih
    · exact ih
  | @visit seen stack out n hn _ ih =>
    obtain ⟨hPn, hPs⟩ := List.forall_mem_cons.1 hstack
    have ih := ih fun m hm => (List.mem_append.1 hm).elim (hP n hPn m) (hPs m)
    rw [List.filter_cons, List.filter_append] at ih
    rw [List.filter_cons]
    split
    · next hp =>
      rw [if_pos hp] at ih
      exact .visit (fun hmem => hn (List.mem_filter.1 hmem).1) ih
    · next hp =>
      have hnone : (next n).filter p = [] :=
        List.filter_eq_nil_iff.2 fun m hm => by simp [hinner n hPn (by simpa using hp) m hm]
      rw [if_neg hp, hnone] at ih
      exact ih

/-- A walk depends on what lies below the nodes that it may come to. -/
theorem congr {next' : NodeId → List NodeId} {P : NodeId → Prop}
    (hP : ∀ n, P n → ∀ m ∈ next n, P m) (hnext : ∀ n, P n → next' n = next n)
    (h : Walk next seen stack out) (hstack : ∀ n ∈ stack, P n) : Walk next' seen stack out := by
  induction h with
  | done seen => exact .done seen
  | skip hn _ ih => exact .skip hn (ih fun m hm => hstack m (List.mem_cons_of_mem _ hm))
  | @visit seen stack out n hn _ ih =>
    obtain ⟨hPn, hPs⟩ := List.forall_mem_cons.1 hstack
    have ih := ih fun m hm => (List.mem_append.1 hm).elim (hP n hPn m) (hPs m)
    rw [← hnext n hPn] at ih
    exact .visit hn ih

end Walk

namespace Graph

variable {g : Graph} {s : Search} {root n m : NodeId}

/-! ## Steps enough -/

/-- One more thing that was seen takes its weight off the sum over what was not seen. -/
theorem sum_unseen_cons {ι α : Type*} [DecidableEq ι] [BEq α] [LawfulBEq α] (weight : α → Nat)
    (all : Finset ι) {f : ι → α} (hf : f.Injective) {seen : List α} {x : α} (hx : x ∉ seen)
    (hout : (∀ i ∈ all, f i ≠ x) → weight x = 0) :
    (∑ i ∈ all, if f i ∈ x :: seen then 0 else weight (f i)) + weight x =
      ∑ i ∈ all, if f i ∈ seen then 0 else weight (f i) := by
  have hsame : ∀ i, f i ≠ x → (if f i ∈ x :: seen then 0 else weight (f i)) =
      if f i ∈ seen then 0 else weight (f i) := fun i hi => by simp [hi]
  by_cases h : ∃ i ∈ all, f i = x
  · obtain ⟨i, hi, rfl⟩ := h
    rw [← Finset.add_sum_erase _ _ hi, ← Finset.add_sum_erase _ _ hi,
      Finset.sum_congr rfl fun j hj => hsame j fun hij => (Finset.mem_erase.1 hj).1 (hf hij)]
    simp only [List.mem_cons, true_or, if_true, if_neg hx, Nat.zero_add]
    exact Nat.add_comm _ _
  · have hnone : ∀ i ∈ all, f i ≠ x := fun i hi hix => h ⟨i, hi, hix⟩
    rw [hout hnone, Finset.sum_congr rfl fun i hi => hsame i (hnone i hi)]
    rfl

/-- The edges that a search may still follow: those below nodes that were not seen. -/
def unseen (g : Graph) (s : Search) (seen : List NodeId) : Nat :=
  ∑ i ∈ Finset.range g.size, if ⟨i⟩ ∈ seen then 0 else (g.below s ⟨i⟩).length

theorem below_of_not_has (h : g.has n = false) : g.below s n = [] := by
  unfold below
  split
  · rw [outgoing_of_not_has h]
    rfl
  · rfl

/-- Seeing a node takes the edges below it off the count. -/
theorem unseen_cons {seen : List NodeId} (hn : n ∉ seen) :
    g.unseen s (n :: seen) + (g.below s n).length = g.unseen s seen := by
  refine sum_unseen_cons (fun m => (g.below s m).length) (Finset.range g.size) (f := NodeId.mk)
    (fun _ _ h => NodeId.mk.inj h) hn fun hnone => ?_
  have hg : g.has n = false := by
    by_contra hg
    exact hnone n.index (by simpa [has] using hg) rfl
  rw [below_of_not_has hg]
  rfl

/-- With a step for each node that waits and each edge that may still be followed, a search runs
through its stack. -/
theorem walk_descend : ∀ {steps : Nat} {seen stack : List NodeId},
    stack.length + g.unseen s seen ≤ steps →
      Walk (g.below s) seen stack (g.descend s steps seen stack)
  | 0, seen, [], _ => .done seen
  | 0, _, _ :: _, h => absurd h (by simp)
  | _ + 1, seen, [], _ => .done seen
  | steps + 1, seen, n :: stack, h => by
    rw [descend]
    by_cases hn : n ∈ seen
    · rw [if_pos hn]
      refine .skip hn (walk_descend ?_)
      simp only [List.length_cons] at h
      omega
    · rw [if_neg hn]
      refine .visit hn (walk_descend ?_)
      have hcons := unseen_cons (g := g) (s := s) hn
      simp only [List.length_cons, List.length_append] at h ⊢
      omega

theorem length_below_le (s : Search) (n : NodeId) :
    (g.below s n).length ≤ (g.outgoing n).length := by
  unfold below
  split
  · rw [List.length_map, (Edge.perm_byRole _).length_eq]
    exact List.length_filter_le _ _
  · exact Nat.zero_le _

theorem edgeCount_eq (g : Graph) :
    g.edgeCount = ∑ i ∈ Finset.range g.size, (g.outgoing ⟨i⟩).length := by
  have hsum : ∀ nodes : List Node, nodes.foldr (fun n count => n.outgoing.length + count) 0 =
      ∑ i ∈ Finset.range nodes.length, (nodes.getD i default).outgoing.length := by
    intro nodes
    induction nodes with
    | nil => rfl
    | cons n ns ih =>
      rw [List.foldr_cons, ih, List.length_cons, Finset.sum_range_succ']
      simp only [List.getD_cons_succ, List.getD_cons_zero]
      exact Nat.add_comm _ _
  rw [edgeCount, hsum, Array.length_toList]
  refine Finset.sum_congr rfl fun i _ => ?_
  simp only [outgoing, node, List.getD_eq_getElem?_getD, Array.getElem?_toList,
    Array.getD_eq_getD_getElem?]

theorem unseen_nil_le : g.unseen s [] ≤ g.edgeCount := by
  rw [edgeCount_eq]
  refine Finset.sum_le_sum fun i _ => ?_
  simpa using length_below_le s ⟨i⟩

/-- A downward search has the steps for a walk from its start. -/
theorem walk_from_start (g : Graph) (s : Search) :
    Walk (g.below s) [] [s.start] (g.descend s (g.edgeCount + 1) [] [s.start]) := by
  refine walk_descend ?_
  have := unseen_nil_le (g := g) (s := s)
  simp only [List.length_singleton]
  omega

/-- A downward search that visits its start visits what a walk from there lists. -/
theorem walk_visits_down (hdown : s.direction = .down) (hstart : s.includeStart) :
    Walk (g.below s) [] [s.start] (g.visits s) := by
  rw [visits, hdown, if_pos hstart]
  exact walk_from_start g s

theorem walk_visits (root : NodeId) :
    Walk (g.below (.down root)) [] [root] (g.visits (.down root)) :=
  walk_visits_down (s := .down root) rfl rfl

/-! ## What lies below a root -/

/-- A node is in the tree of the program that hangs below a root. -/
inductive Below (g : Graph) (root : NodeId) : NodeId → Prop
  | root : Below g root root
  | child {n : NodeId} {e : Edge} (h : Below g root n) (he : e ∈ g.outgoing n)
      (hs : e.role.isStructural) : Below g root e.node

theorem mem_below_down :
    m ∈ g.below (.down root) n ↔ ∃ e ∈ g.outgoing n, e.role.isStructural ∧ e.node = m := by
  simp [below, Search.down, Search.expands, and_assoc]

theorem mem_visits_down : n ∈ g.visits (.down root) ↔ g.Below root n := by
  constructor
  · refine fun h => (walk_visits root).sound (fun n hn m hm => ?_) nofun (fun m hm => ?_) n h
    · obtain ⟨e, he, hs, rfl⟩ := mem_below_down.1 hm
      exact hn.child he hs
    · obtain rfl := List.mem_singleton.1 hm
      exact .root
  · intro h
    induction h with
    | root => exact (walk_visits root).mem (Or.inr List.mem_cons_self)
    | child _ he hs ih =>
      exact (walk_visits root).closed nofun _ ih _ (mem_below_down.2 ⟨_, he, hs, rfl⟩)

/-- The search for nodes below a root finds exactly those. -/
theorem mem_reachable {p : NodeId → Bool} :
    n ∈ g.reachable root p ↔ g.Below root n ∧ p n := by
  rw [reachable, collect, List.mem_filter, mem_visits_down]

/-- Where a search visits the same nodes in the same order, it finds the same. -/
theorem reachable_congr {h : Graph} {p q : NodeId → Bool}
    (hvisits : h.visits (.down root) = g.visits (.down root))
    (hpq : ∀ n, g.Below root n → q n = p n) : h.reachable root q = g.reachable root p := by
  rw [reachable, reachable, collect, collect, hvisits]
  exact List.filter_congr fun n hn => hpq n (mem_visits_down.1 hn)

theorem nodup_reachable (p : NodeId → Bool) : (g.reachable root p).Nodup :=
  ((walk_visits root).nodup List.nodup_nil).filter _

theorem Below.trans (h : g.Below root n) (hm : g.Below n m) : g.Below root m := by
  induction hm with
  | root => exact h
  | child _ he hs ih => exact ih.child he hs

/-- What lies below a root does so in a graph whose nodes lead to what they lead to here, too. -/
theorem Below.mono {h : Graph} (hn : g.Below root n) (hedge : ∀ m, ∀ e ∈ g.outgoing m,
    e.role.isStructural → ∃ e' ∈ h.outgoing m, e'.role.isStructural ∧ e'.node = e.node) :
    h.Below root n := by
  induction hn with
  | root => exact .root
  | child _ he hs ih =>
    obtain ⟨e', he', hs', heq⟩ := hedge _ _ he hs
    exact heq ▸ ih.child he' hs'

theorem Below.of_child? {r : Role} (h : g.Below root n) (hc : g.child? n r = some m)
    (hs : r.isStructural) : g.Below root m := by
  obtain ⟨e, he, rfl⟩ := Option.map_eq_some_iff.1 hc
  have hr : e.role = r := by simpa using List.find?_some he
  exact h.child (List.mem_of_find?_eq_some he) (hr ▸ hs)

theorem Below.of_mem_items (h : g.Below root n) (hm : m ∈ g.items n) : g.Below root m := by
  obtain ⟨e, he, rfl⟩ := List.mem_map.1 hm
  obtain ⟨he, hitem⟩ := List.mem_filter.1 (Edge.mem_byRole.1 he)
  refine h.child he ?_
  cases hr : e.role <;> simp_all [Role.isItem, Role.index?, Role.isStructural]

/-! ## What lies above a node -/

theorem above_up (start n : NodeId) : g.above (.up start) n = g.parents n := by
  simp [above, Search.up, Search.expands, parents]

/-- The nodes of a list that were not yet met, each once. -/
def unmet (met : List NodeId) : List NodeId → List NodeId
  | [] => []
  | n :: ns => if n ∈ met then unmet met ns else n :: unmet (met ++ [n]) ns

theorem mem_unmet : ∀ {ns met : List NodeId}, m ∈ unmet met ns ↔ m ∈ ns ∧ m ∉ met
  | [], met => by simp [unmet]
  | n :: ns, met => by
    rw [unmet]
    split
    · next hn =>
      rw [mem_unmet, List.mem_cons]
      exact ⟨fun h => ⟨Or.inr h.1, h.2⟩,
        fun h => ⟨h.1.resolve_left fun hmn => h.2 (hmn ▸ hn), h.2⟩⟩
    · next hn =>
      rw [List.mem_cons, mem_unmet, List.mem_cons]
      by_cases hmn : m = n
      · simp [hmn, hn]
      · simp [hmn]

theorem mem_append_unmet {met ns : List NodeId} :
    m ∈ met ++ unmet met ns ↔ m ∈ met ∨ m ∈ ns := by
  rw [List.mem_append, mem_unmet]
  by_cases hm : m ∈ met <;> simp [hm]

theorem nodup_unmet : ∀ {ns met : List NodeId}, (unmet met ns).Nodup
  | [], _ => List.nodup_nil
  | n :: ns, met => by
    rw [unmet]
    split
    · exact nodup_unmet
    · exact List.nodup_cons.2 ⟨fun hn => (mem_unmet.1 hn).2 (by simp), nodup_unmet⟩

theorem nodup_append_unmet {met ns : List NodeId} (hmet : met.Nodup) :
    (met ++ unmet met ns).Nodup :=
  hmet.append nodup_unmet fun _ hm hnew => (mem_unmet.1 hnew).2 hm

/-- What was not yet met comes behind what was, and behind what waits. -/
theorem enqueue_eq : ∀ {ns met queue : List NodeId},
    enqueue met queue ns = (met ++ unmet met ns, queue ++ unmet met ns)
  | [], met, queue => by simp [enqueue, unmet]
  | n :: ns, met, queue => by
    rw [enqueue, unmet]
    split
    · exact enqueue_eq
    · rw [enqueue_eq]
      simp

theorem ascend_cons (steps : Nat) (met queue : List NodeId) :
    g.ascend s (steps + 1) met (n :: queue) =
      g.ascend s steps (met ++ unmet met (g.above s n)) (queue ++ unmet met (g.above s n)) := by
  rw [ascend, enqueue_eq]

section Above

variable {P : NodeId → Prop} {start : NodeId}

theorem forall_mem_append_unmet {l met ns : List NodeId} (hl : ∀ n ∈ l, P n) (hns : ∀ n ∈ ns, P n) :
    ∀ n ∈ l ++ unmet met ns, P n :=
  List.forall_mem_append.2 ⟨hl, fun n hn => hns n (mem_unmet.1 hn).1⟩

/-- What holds of the start of an upward search, and passes from a node to its parents, holds of
all that is met. -/
theorem ascend_sound (hP : ∀ n, P n → ∀ m ∈ g.parents n, P m) :
    ∀ {steps : Nat} {met queue : List NodeId}, (∀ n ∈ met, P n) → (∀ n ∈ queue, P n) →
      ∀ n ∈ g.ascend (.up start) steps met queue, P n
  | 0, _, _, hmet, _ => hmet
  | _ + 1, _, [], hmet, _ => hmet
  | steps + 1, met, n :: queue, hmet, hqueue => by
    obtain ⟨hn, hqueue⟩ := List.forall_mem_cons.1 hqueue
    rw [ascend_cons, above_up]
    exact ascend_sound hP (forall_mem_append_unmet hmet (hP n hn))
      (forall_mem_append_unmet hqueue (hP n hn))

/-- An upward search depends on the parents of the nodes that it may come to. -/
theorem ascend_congr {h : Graph} (hP : ∀ n, P n → ∀ m ∈ g.parents n, P m)
    (hparents : ∀ n, P n → h.parents n = g.parents n) :
    ∀ {steps : Nat} {met queue : List NodeId}, (∀ n ∈ met, P n) → (∀ n ∈ queue, P n) →
      h.ascend (.up start) steps met queue = g.ascend (.up start) steps met queue
  | 0, _, _, _, _ => rfl
  | _ + 1, _, [], _, _ => rfl
  | steps + 1, met, n :: queue, hmet, hqueue => by
    obtain ⟨hn, hqueue⟩ := List.forall_mem_cons.1 hqueue
    rw [ascend_cons, ascend_cons, above_up, above_up, hparents n hn]
    exact ascend_congr hP hparents (forall_mem_append_unmet hmet (hP n hn))
      (forall_mem_append_unmet hqueue (hP n hn))

/-- The nearest ancestor is another node than the start, above it, and passes the test. -/
theorem nearestAncestor?_sound {p : NodeId → Bool} (hP : ∀ n, P n → ∀ m ∈ g.parents n, P m)
    (hstart : P start) (h : g.nearestAncestor? start p = some m) : P m ∧ m ≠ start ∧ p m := by
  have hmem : m ∈ (g.ascend (.up start) (g.size + 1) [start] [start]).filter (· ≠ start) :=
    List.mem_of_find?_eq_some h
  obtain ⟨hmem, hne⟩ := List.mem_filter.1 hmem
  refine ⟨ascend_sound hP ?_ ?_ m hmem, by simpa using hne, List.find?_some h⟩ <;>
    simpa using hstart

end Above

end Graph

end TypeFlow
