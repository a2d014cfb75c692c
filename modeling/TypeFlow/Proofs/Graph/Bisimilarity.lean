import Mathlib.Algebra.BigOperators.Ring.Finset
import TypeFlow.Graph.Bisimilar
import TypeFlow.Proofs.Graph.Mutation
import TypeFlow.Proofs.Graph.Shuffle
/-!
# Structural equality is bisimilarity

Two nodes are bisimilar if a relation that holds of them is a `Graph.Bisimulation`: related nodes
are one node, or agree in kind, payload and roles, and their targets are related role by role.
`deepEq_bisimilar` says that `Graph.deepEq` decides this on well-kept graphs.

A comparison runs through its stack as `Compares` says, without a count: the count that `deepEq`
starts with is never used up (`compares_matchPairs`). One that finds no difference has assumed a
bisimulation (`Compares.assumes`), and one that finds a difference was given nodes that no
bisimulation relates (`Compares.eq_true`).
-/

namespace TypeFlow

/-! ## Payloads -/

namespace Double

variable {x y z : Double}

theorem sameNumber_symm (h : x.sameNumber y) : y.sameNumber x := by
  simp only [sameNumber, Bool.and_eq_true, Bool.or_eq_true, decide_eq_true_eq] at h ⊢
  obtain ⟨⟨hx, hy⟩, hxy | ⟨hx', hy'⟩⟩ := h
  · exact ⟨⟨hy, hx⟩, Or.inl hxy.symm⟩
  · exact ⟨⟨hy, hx⟩, Or.inr ⟨hy', hx'⟩⟩

theorem sameNumber_trans (hxy : x.sameNumber y) (hyz : y.sameNumber z) : x.sameNumber z := by
  have heq : ∀ {a b : Double}, a.bits = b.bits → a = b := fun {a b} h => by
    cases a
    cases b
    exact congrArg Double.mk h
  simp only [sameNumber, Bool.and_eq_true, Bool.or_eq_true, decide_eq_true_eq] at hxy hyz ⊢
  obtain ⟨⟨hx, -⟩, hxy | ⟨hx', hy'⟩⟩ := hxy
  · obtain rfl := heq hxy
    exact hyz
  · obtain ⟨⟨-, hz⟩, hyz | ⟨-, hz'⟩⟩ := hyz
    · obtain rfl := heq hyz
      exact ⟨⟨hx, hz⟩, Or.inr ⟨hx', hy'⟩⟩
    · exact ⟨⟨hx, hz⟩, Or.inr ⟨hx', hz'⟩⟩

end Double

namespace Payload

variable {p q t : Payload}

/-- Floats agree as numbers, and nothing else agrees with anything but itself. -/
theorem agrees_iff : p.agrees q ↔ (∃ x y, p = .float x ∧ q = .float y ∧ x.sameNumber y) ∨
    p = q ∧ ∀ x, p ≠ .float x := by
  cases p <;> cases q <;> simp [agrees]

theorem agrees_symm (h : p.agrees q) : q.agrees p := by
  rw [agrees_iff] at h ⊢
  obtain ⟨x, y, rfl, rfl, hxy⟩ | ⟨rfl, hp⟩ := h
  · exact Or.inl ⟨y, x, rfl, rfl, Double.sameNumber_symm hxy⟩
  · exact Or.inr ⟨rfl, hp⟩

theorem agrees_trans (hpq : p.agrees q) (hqt : q.agrees t) : p.agrees t := by
  rw [agrees_iff] at hpq
  obtain ⟨x, y, rfl, rfl, hxy⟩ | ⟨rfl, -⟩ := hpq
  · rw [agrees_iff] at hqt ⊢
    obtain ⟨y', z, hy, rfl, hyz⟩ | ⟨rfl, hy⟩ := hqt
    · cases hy
      exact Or.inl ⟨x, z, rfl, rfl, Double.sameNumber_trans hxy hyz⟩
    · exact absurd rfl (hy y)
  · exact hqt

end Payload

namespace Graph

variable {g : Graph} {a b c n : NodeId} {r : Role} {R S : NodeId → NodeId → Prop}

/-! ## Bisimulations -/

/-- Two nodes agree in kind, payload and roles, and their targets are related role by role. -/
structure Alike (g : Graph) (R : NodeId → NodeId → Prop) (a b : NodeId) : Prop where
  kind : g.kind a = g.kind b
  payload : (g.payload a).agrees (g.payload b)
  child : ∀ r, Option.Rel R (g.child? a r) (g.child? b r)

/-- Related nodes are one node, or alike up to the relation. -/
def Bisimulation (g : Graph) (R : NodeId → NodeId → Prop) : Prop :=
  ∀ a b, R a b → a = b ∨ g.Alike R a b

/-- Some bisimulation relates two nodes. -/
def Bisimilar (g : Graph) (a b : NodeId) : Prop := ∃ R, g.Bisimulation R ∧ R a b

section Rel

variable {x y z : Option NodeId}

theorem rel_mono (hRS : ∀ a b, R a b → S a b) : Option.Rel R x y → Option.Rel S x y
  | .some h => .some (hRS _ _ h)
  | .none => .none

theorem rel_symm : Option.Rel R x y → Option.Rel (fun a b => R b a) y x
  | .some h => .some h
  | .none => .none

theorem rel_trans : Option.Rel R x y → Option.Rel S y z →
    Option.Rel (fun a c => ∃ b, R a b ∧ S b c) x z
  | .some h, .some h' => .some ⟨_, h, h'⟩
  | .none, .none => .none

end Rel

namespace Alike

theorem mono (hRS : ∀ a b, R a b → S a b) (h : g.Alike R a b) : g.Alike S a b where
  kind := h.kind
  payload := h.payload
  child r := rel_mono hRS (h.child r)

theorem symm (h : g.Alike R a b) : g.Alike (fun a b => R b a) b a where
  kind := h.kind.symm
  payload := Payload.agrees_symm h.payload
  child r := rel_symm (h.child r)

theorem trans (h : g.Alike R a b) (h' : g.Alike S b c) :
    g.Alike (fun a c => ∃ b, R a b ∧ S b c) a c where
  kind := h.kind.trans h'.kind
  payload := Payload.agrees_trans h.payload h'.payload
  child r := rel_trans (h.child r) (h'.child r)

end Alike

theorem bisimulation_bisimilar : g.Bisimulation g.Bisimilar := by
  rintro a b ⟨R, hR, hab⟩
  exact (hR a b hab).imp_right fun h => h.mono fun x y hxy => ⟨R, hR, hxy⟩

/-- Bisimilarity is an equivalence, though a number need not agree with itself: a node is bisimilar
to itself for being one node. -/
theorem equivalence_bisimilar (g : Graph) : Equivalence g.Bisimilar where
  refl a := ⟨Eq, fun _ _ h => Or.inl h, rfl⟩
  symm := by
    rintro a b ⟨R, hR, hab⟩
    exact ⟨fun a b => R b a, fun a b h => (hR b a h).imp Eq.symm Alike.symm, hab⟩
  trans := by
    intro a b c hab hbc
    refine ⟨fun a c => ∃ b, g.Bisimilar a b ∧ g.Bisimilar b c, ?_, b, hab, hbc⟩
    rintro a c ⟨b, hab, hbc⟩
    rcases bisimulation_bisimilar a b hab with rfl | hab
    · exact (bisimulation_bisimilar a c hbc).imp_right fun h =>
        h.mono fun x y hxy => ⟨x, ⟨Eq, fun _ _ h => Or.inl h, rfl⟩, hxy⟩
    · rcases bisimulation_bisimilar b c hbc with rfl | hbc
      · exact Or.inr (hab.mono fun x y hxy => ⟨y, hxy, Eq, fun _ _ h => Or.inl h, rfl⟩)
      · exact Or.inr (hab.trans hbc)

/-! ## What two nodes oblige to -/

/-- Lists of edges can be aligned if they agree in their roles. -/
theorem alignTargets_eq_some : ∀ {es fs : List Edge} {pairs : List (NodeId × NodeId)},
    alignTargets es fs = some pairs ↔ es.map Edge.role = fs.map Edge.role ∧
      pairs = (es.map Edge.node).zip (fs.map Edge.node)
  | [], [], pairs => by simp [alignTargets, eq_comm]
  | [], _ :: _, pairs => by simp [alignTargets]
  | _ :: _, [], pairs => by simp [alignTargets]
  | e :: es, f :: fs, pairs => by
    rw [alignTargets]
    split
    · next hrole =>
      simp only [Option.map_eq_some_iff, alignTargets_eq_some, List.map_cons, List.zip_cons_cons,
        List.cons.injEq, hrole, true_and]
      constructor
      · rintro ⟨_, ⟨hroles, rfl⟩, rfl⟩
        exact ⟨hroles, rfl⟩
      · rintro ⟨hroles, rfl⟩
        exact ⟨_, ⟨hroles, rfl⟩, rfl⟩
    · next hrole => simp [hrole]

/-- Aligned targets are those of one role. -/
theorem mem_zip_targets {x y : NodeId} : ∀ {es fs : List Edge},
    es.map Edge.role = fs.map Edge.role → (es.map Edge.role).Nodup →
      ((x, y) ∈ (es.map Edge.node).zip (fs.map Edge.node) ↔ ∃ r, ⟨r, x⟩ ∈ es ∧ ⟨r, y⟩ ∈ fs)
  | [], [], _, _ => by simp
  | e :: es, f :: fs, hroles, hnodup => by
    simp only [List.map_cons, List.cons.injEq] at hroles
    obtain ⟨hrole, hroles⟩ := hroles
    obtain ⟨he, hes⟩ := List.nodup_cons.1 hnodup
    rw [List.map_cons, List.map_cons, List.zip_cons_cons, List.mem_cons,
      mem_zip_targets hroles hes]
    constructor
    · rintro (h | ⟨r, hx, hy⟩)
      · cases h
        exact ⟨e.role, List.mem_cons_self, hrole ▸ List.mem_cons_self⟩
      · exact ⟨r, List.mem_cons_of_mem _ hx, List.mem_cons_of_mem _ hy⟩
    · rintro ⟨r, hx, hy⟩
      rcases List.mem_cons.1 hx with rfl | hx
      · rcases List.mem_cons.1 hy with rfl | hy
        · exact Or.inl rfl
        · exact absurd (hroles ▸ List.mem_map_of_mem hy : r ∈ es.map Edge.role) he
      · rcases List.mem_cons.1 hy with rfl | hy
        · exact absurd (List.mem_map.2 ⟨_, hx, hrole.symm⟩) he
        · exact Or.inr ⟨r, hx, hy⟩

/-- The roles of the edges from a node, in order. -/
theorem mem_roles : r ∈ (Edge.byRole (g.outgoing n)).map Edge.role ↔ (g.child? n r).isSome := by
  have hmem : r ∈ (Edge.byRole (g.outgoing n)).map Edge.role ↔
      r ∈ (g.outgoing n).map Edge.role := ((Edge.perm_byRole _).map _).mem_iff
  rw [hmem, ← not_iff_not, ← child?_eq_none, Option.not_isSome_iff_eq_none]

theorem nodup_roles (hg : g.WellKept) (n : NodeId) :
    ((Edge.byRole (g.outgoing n)).map Edge.role).Nodup :=
  ((Edge.perm_byRole _).map _).nodup_iff.2 (hg.unique n)

/-- Nodes with the same roles have them in the same order. -/
theorem roles_eq (hg : g.WellKept) (h : ∀ r, (g.child? a r).isSome = (g.child? b r).isSome) :
    (Edge.byRole (g.outgoing a)).map Edge.role = (Edge.byRole (g.outgoing b)).map Edge.role := by
  have hperm : ((Edge.byRole (g.outgoing a)).map Edge.role).Perm
      ((Edge.byRole (g.outgoing b)).map Edge.role) :=
    (List.perm_ext_iff_of_nodup (nodup_roles hg a) (nodup_roles hg b)).2 fun r => by
      rw [mem_roles, mem_roles, h]
  have hsorted : ∀ n, ((Edge.byRole (g.outgoing n)).map Edge.role).Pairwise
      (·.position ≤ ·.position) :=
    fun n => List.pairwise_map.2 (Edge.pairwise_byRole (g.outgoing n))
  exact hperm.eq_of_pairwise
    (fun q r _ _ hqr hrq => Role.position_inj.1 (Nat.le_antisymm hqr hrq)) (hsorted a) (hsorted b)

theorem obligations_eq_some {pairs : List (NodeId × NodeId)} :
    g.obligations a b = some pairs ↔ (g.kind a = g.kind b ∧ (g.payload a).agrees (g.payload b)) ∧
      alignTargets (Edge.byRole (g.outgoing a)) (Edge.byRole (g.outgoing b)) = some pairs := by
  unfold obligations
  split
  · next h => simp [h]
  · next h => simp [h]

/-- The pairs that two nodes oblige to are the targets of one role. -/
theorem mem_obligations (hg : g.WellKept) {pairs : List (NodeId × NodeId)}
    (h : g.obligations a b = some pairs) {x y : NodeId} :
    (x, y) ∈ pairs ↔ ∃ r, g.child? a r = some x ∧ g.child? b r = some y := by
  obtain ⟨hroles, rfl⟩ := alignTargets_eq_some.1 (obligations_eq_some.1 h).2
  rw [mem_zip_targets hroles (nodup_roles hg a)]
  simp only [Edge.mem_byRole, child?_eq_some hg]

/-- Nodes are alike if they meet what they oblige to. -/
theorem alike_of_obligations (hg : g.WellKept) {pairs : List (NodeId × NodeId)}
    (h : g.obligations a b = some pairs) (hR : ∀ p ∈ pairs, R p.1 p.2) : g.Alike R a b := by
  obtain ⟨⟨hkind, hpayload⟩, halign⟩ := obligations_eq_some.1 h
  refine ⟨hkind, hpayload, fun r => ?_⟩
  have hsome : (g.child? a r).isSome ↔ (g.child? b r).isSome := by
    rw [← mem_roles, ← mem_roles, (alignTargets_eq_some.1 halign).1]
  have hmem := fun x y => mem_obligations hg h (x := x) (y := y)
  cases ha : g.child? a r with
  | none =>
    cases hb : g.child? b r with
    | none => exact .none
    | some y => simp [ha, hb] at hsome
  | some x =>
    cases hb : g.child? b r with
    | none => simp [ha, hb] at hsome
    | some y => exact .some (hR _ ((hmem x y).2 ⟨r, ha, hb⟩))

/-- Alike nodes oblige to related pairs. -/
theorem Alike.obligations (hg : g.WellKept) (h : g.Alike R a b) :
    ∃ pairs, g.obligations a b = some pairs ∧ ∀ p ∈ pairs, R p.1 p.2 := by
  have hsome : ∀ r, (g.child? a r).isSome = (g.child? b r).isSome := by
    intro r
    have hr := h.child r
    generalize g.child? a r = x, g.child? b r = y at hr
    cases hr <;> rfl
  have hpairs := obligations_eq_some.2
    ⟨⟨h.kind, h.payload⟩, alignTargets_eq_some.2 ⟨roles_eq hg hsome, rfl⟩⟩
  refine ⟨_, hpairs, fun ⟨x, y⟩ hp => ?_⟩
  obtain ⟨r, hx, hy⟩ := (mem_obligations hg hpairs).1 hp
  have hr := h.child r
  rw [hx, hy] at hr
  exact Option.rel_some_some.1 hr

/-! ## A comparison to its end -/

/-- A comparison of the pairs of a stack, from the top, that comes to its end: a pair of one node
or one that was assumed is skipped, and any other is assumed and replaced by what it obliges to. -/
inductive Compares (g : Graph) : List (NodeId × NodeId) → List (NodeId × NodeId) → Bool → Prop
  | done (assumed : List (NodeId × NodeId)) : Compares g assumed [] true
  | skip {assumed stack : List (NodeId × NodeId)} {a b : NodeId} {answer : Bool}
      (h : a = b ∨ (a, b) ∈ assumed) (rest : Compares g assumed stack answer) :
      Compares g assumed ((a, b) :: stack) answer
  | differ {assumed stack : List (NodeId × NodeId)} {a b : NodeId}
      (h : ¬(a = b ∨ (a, b) ∈ assumed)) (hnone : g.obligations a b = none) :
      Compares g assumed ((a, b) :: stack) false
  | expand {assumed stack pairs : List (NodeId × NodeId)} {a b : NodeId} {answer : Bool}
      (h : ¬(a = b ∨ (a, b) ∈ assumed)) (hpairs : g.obligations a b = some pairs)
      (rest : Compares g ((a, b) :: assumed) (pairs ++ stack) answer) :
      Compares g assumed ((a, b) :: stack) answer

namespace Compares

variable {assumed stack : List (NodeId × NodeId)} {answer : Bool}

/-- A comparison that finds no difference has assumed a set of pairs that holds what its members
oblige to, and the pairs of the stack, up to pairs of one node. -/
theorem assumes (h : Compares g assumed stack answer) (hanswer : answer = true) :
    ∃ all : List (NodeId × NodeId), assumed ⊆ all ∧ (∀ p ∈ stack, p.1 = p.2 ∨ p ∈ all) ∧
      ∀ p ∈ all, p ∈ assumed ∨ ∃ pairs, g.obligations p.1 p.2 = some pairs ∧
        ∀ q ∈ pairs, q.1 = q.2 ∨ q ∈ all := by
  induction h with
  | done assumed => exact ⟨assumed, fun _ h => h, nofun, fun _ h => Or.inl h⟩
  | skip hab _ ih =>
    obtain ⟨all, hsub, hstack, hclosed⟩ := ih hanswer
    exact ⟨all, hsub, List.forall_mem_cons.2 ⟨hab.imp_right fun h => hsub h, hstack⟩, hclosed⟩
  | differ => cases hanswer
  | @expand assumed stack pairs a b _ _ hpairs _ ih =>
    obtain ⟨all, hsub, hstack, hclosed⟩ := ih hanswer
    obtain ⟨hab, hsub⟩ := List.cons_subset.1 hsub
    obtain ⟨hnew, hstack⟩ := List.forall_mem_append.1 hstack
    refine ⟨all, hsub, List.forall_mem_cons.2 ⟨Or.inr hab, hstack⟩, fun p hp => ?_⟩
    rcases hclosed p hp with hp | hp
    · rcases List.mem_cons.1 hp with rfl | hp
      · exact Or.inr ⟨pairs, hpairs, hnew⟩
      · exact Or.inl hp
    · exact Or.inr hp

/-- Pairs that a bisimulation relates show no difference. -/
theorem eq_true (hg : g.WellKept) (hR : g.Bisimulation R) (h : Compares g assumed stack answer)
    (hstack : ∀ p ∈ stack, R p.1 p.2) : answer = true := by
  induction h with
  | done => rfl
  | skip _ _ ih => exact ih (List.forall_mem_cons.1 hstack).2
  | @differ _ _ a b hab hnone =>
    rcases hR a b (List.forall_mem_cons.1 hstack).1 with rfl | halike
    · exact absurd (Or.inl rfl) hab
    · obtain ⟨pairs, hpairs, -⟩ := halike.obligations hg
      cases hnone.symm.trans hpairs
  | @expand _ _ pairs a b _ hab hpairs _ ih =>
    obtain ⟨hpair, hstack⟩ := List.forall_mem_cons.1 hstack
    rcases hR a b hpair with rfl | halike
    · exact absurd (Or.inl rfl) hab
    · obtain ⟨_, hpairs', hrelated⟩ := halike.obligations hg
      obtain rfl := Option.some.inj (hpairs.symm.trans hpairs')
      exact ih (List.forall_mem_append.2 ⟨hrelated, hstack⟩)

/-- A comparison of two nodes finds no difference exactly if they are bisimilar. -/
theorem eq_true_iff (hg : g.WellKept) (h : Compares g [] [(a, b)] answer) :
    answer = true ↔ g.Bisimilar a b := by
  constructor
  · intro hanswer
    obtain ⟨all, -, hstack, hclosed⟩ := h.assumes hanswer
    refine ⟨fun a b => a = b ∨ (a, b) ∈ all, ?_, hstack _ List.mem_cons_self⟩
    intro a b hab
    refine hab.imp_right fun hmem => ?_
    obtain hmem | ⟨pairs, hpairs, hrelated⟩ := hclosed _ hmem
    · cases hmem
    · exact alike_of_obligations hg hpairs hrelated
  · rintro ⟨R, hR, hab⟩
    exact h.eq_true hg hR (List.forall_mem_singleton.2 hab)

end Compares

/-! ## Steps enough -/

/-- What pairs that were not assumed may still oblige to: each the edges from its first node. -/
def unmatched (g : Graph) (assumed : List (NodeId × NodeId)) : Nat :=
  ∑ i ∈ Finset.range g.size ×ˢ Finset.range g.size,
    if assumed.contains (⟨i.1⟩, ⟨i.2⟩) then 0 else (g.outgoing ⟨i.1⟩).length

theorem length_obligations {pairs : List (NodeId × NodeId)}
    (h : g.obligations a b = some pairs) :
    pairs.length = (g.outgoing a).length ∧ pairs.length = (g.outgoing b).length := by
  obtain ⟨hroles, rfl⟩ := alignTargets_eq_some.1 (obligations_eq_some.1 h).2
  have hlength := congrArg List.length hroles
  simp only [List.length_map, (Edge.perm_byRole _).length_eq, List.length_zip] at hlength ⊢
  omega

/-- Assuming a pair takes what it obliges to off the count. -/
theorem unmatched_cons {assumed pairs : List (NodeId × NodeId)} (hab : (a, b) ∉ assumed)
    (h : g.obligations a b = some pairs) :
    g.unmatched ((a, b) :: assumed) + pairs.length = g.unmatched assumed := by
  obtain ⟨ha, hb⟩ := length_obligations h
  have hinj : (fun i : Nat × Nat => ((⟨i.1⟩ : NodeId), (⟨i.2⟩ : NodeId))).Injective := by
    intro i j hij
    simpa [Prod.ext_iff] using hij
  have hhas : ∀ n, (g.outgoing n).length ≠ 0 → n.index < g.size := by
    intro n hn
    by_contra hsize
    exact hn (by rw [outgoing_of_not_has (by simpa [has] using hsize), List.length_nil])
  simp only [ha, unmatched, List.contains_iff_mem]
  refine sum_unseen_cons (fun p : NodeId × NodeId => (g.outgoing p.1).length)
    (Finset.range g.size ×ˢ Finset.range g.size) hinj hab fun hout => ?_
  by_contra hne
  refine hout (a.index, b.index) ?_ rfl
  exact Finset.mem_product.2 ⟨Finset.mem_range.2 (hhas a hne),
    Finset.mem_range.2 (hhas b fun h => hne (ha.symm.trans (hb.trans h)))⟩

theorem unmatched_nil : g.unmatched [] = g.pairBound := by
  rw [pairBound, edgeCount_eq, unmatched, Finset.sum_product, Finset.sum_mul]
  refine Finset.sum_congr rfl fun i _ => ?_
  simp [Nat.mul_comm]

/-- With a step for each pair that waits and each that may still come, a comparison comes to its
end. -/
theorem compares_matchPairs : ∀ {steps : Nat} {assumed stack : List (NodeId × NodeId)},
    stack.length + g.unmatched assumed ≤ steps →
      Compares g assumed stack (g.matchPairs steps assumed stack)
  | 0, _, [], _ => .done _
  | 0, _, _ :: _, h => absurd h (by simp)
  | _ + 1, _, [], _ => .done _
  | steps + 1, assumed, (a, b) :: stack, h => by
    rw [List.length_cons] at h
    rw [matchPairs]
    split
    · next hab => exact .skip hab (compares_matchPairs (by omega))
    · next hab =>
      split
      · next hnone => exact .differ hab hnone
      · next pairs hpairs =>
        have hcons := unmatched_cons (fun hmem => hab (Or.inr hmem)) hpairs
        refine .expand hab hpairs (compares_matchPairs ?_)
        rw [List.length_append]
        omega

theorem compares_deepEq (g : Graph) (a b : NodeId) : Compares g [] [(a, b)] (g.deepEq a b) :=
  compares_matchPairs (by rw [unmatched_nil, List.length_singleton, Nat.add_comm])

/-! ## The decision -/

/-- On a well-kept graph, with cycles or without, a comparison of two nodes comes to its end, and
what it answers is whether they are bisimilar. So it is an equivalence. -/
theorem deepEq_bisimilar (hg : g.WellKept) :
    (∀ a b, Compares g [] [(a, b)] (g.deepEq a b)) ∧
      (∀ a b, g.deepEq a b = true ↔ g.Bisimilar a b) ∧
        Equivalence fun a b => g.deepEq a b = true := by
  have hiff : ∀ a b, g.deepEq a b = true ↔ g.Bisimilar a b :=
    fun a b => (compares_deepEq g a b).eq_true_iff hg
  refine ⟨compares_deepEq g, hiff, ?_⟩
  simpa only [hiff] using equivalence_bisimilar g

/-- Two identifiers that refer to each other, a third that refers to itself, and two literals that
are no numbers. -/
def tangledChanges : List Change :=
  [.single (.add (.expr .ident) (.str "a")), .single (.add (.expr .ident) (.str "a")),
    .single (.add (.expr .ident) (.str "a")),
    .single (.add (.expr .floatLit) (.float ⟨0x7ff8000000000000⟩)),
    .single (.add (.expr .floatLit) (.float ⟨0x7ff8000000000000⟩)),
    .single (.setChild ⟨0⟩ .ref ⟨1⟩), .single (.setChild ⟨1⟩ .ref ⟨0⟩),
    .single (.setChild ⟨2⟩ .ref ⟨2⟩)]

/-- The graph that these changes make. -/
def tangled : Graph := tangledChanges.foldl change empty

theorem deepEq_bisimilar_tangled : tangled.WellKept ∧
    (∀ a b, Compares tangled [] [(a, b)] (tangled.deepEq a b)) ∧
      (∀ a b, tangled.deepEq a b = true ↔ tangled.Bisimilar a b) ∧
        Equivalence fun a b => tangled.deepEq a b = true := by
  have hkept : tangled.WellKept :=
    wellKept_foldl_change tangledChanges wellKept_empty (by decide)
  exact ⟨hkept, deepEq_bisimilar hkept⟩

/-- Cycles of different lengths are equal, and two literals that are no numbers are not. -/
example : tangled.deepEq ⟨0⟩ ⟨2⟩ ∧ !tangled.deepEq ⟨3⟩ ⟨4⟩ ∧ tangled.deepEq ⟨3⟩ ⟨3⟩ := by decide

end Graph

end TypeFlow
