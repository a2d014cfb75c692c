import Mathlib.Algebra.Order.Group.Multiset
import TypeFlow.Proofs.Graph.Children
import TypeFlow.Proofs.Graph.Drafting
import TypeFlow.Proofs.Graph.Reach
/-!
# The tree below a node

The structural edges from a node, in order (`Graph.arms`), and the same edges as a multiset that
does not tell the places of a list apart (`Graph.limbs`). The parents of a node are counted by the
limbs that lead to it (`count_parents_limbs`), and what lies below a root is closed under limbs.
-/

namespace TypeFlow

/-- The role without the index of a place in a list. -/
def Role.blur : Role → Role
  | .item _ => .item 0
  | r => r

/-- The edge without the index of a place in a list. -/
def Edge.blur (e : Edge) : Edge := ⟨e.role.blur, e.node⟩

/-- Let an edge to one node lead to another one. -/
def Edge.redirect (n m : NodeId) (e : Edge) : Edge := if e.node = n then ⟨e.role, m⟩ else e

namespace Role

@[simp] theorem isItem_blur (r : Role) : r.blur.isItem = r.isItem := by cases r <;> rfl

theorem isStructural_of_isItem {r : Role} (h : r.isItem) : r.isStructural := by
  cases r <;> first | rfl | cases h

theorem blur_of_isItem {r : Role} (h : r.isItem) : r.blur = .item 0 := by
  cases r <;> first | rfl | cases h

end Role

namespace Edge

variable {n m : NodeId} {e : Edge}

@[simp] theorem role_redirect : (e.redirect n m).role = e.role := by
  unfold redirect
  split <;> rfl

theorem node_redirect : (e.redirect n m).node = if e.node = n then m else e.node := by
  unfold redirect
  split <;> rfl

@[simp] theorem redirect_self : e.redirect n n = e := by
  unfold redirect
  split
  · next h => rw [← h]
  · rfl

theorem blur_redirect : (e.redirect n m).blur = e.blur.redirect n m := by
  unfold redirect blur
  split <;> rfl

end Edge

namespace Graph

variable {g : Graph} {root n m s d : NodeId} {r : Role}

/-- The structural edges from a node, in the order of adding. -/
def arms (g : Graph) (n : NodeId) : List Edge := (g.outgoing n).filter (·.role.isStructural)

/-- Edges as far as their order and their places in lists do not matter. -/
def limbsOf (edges : List Edge) : Multiset Edge := (edges.map Edge.blur : List Edge)

/-- The structural edges from a node, as far as their order and their places in a list do not
matter. -/
def limbs (g : Graph) (n : NodeId) : Multiset Edge := limbsOf (g.arms n)

theorem limbsOf_append (es fs : List Edge) : limbsOf (es ++ fs) = limbsOf es + limbsOf fs := by
  simp [limbsOf]

@[simp] theorem limbsOf_nil : limbsOf [] = 0 := rfl

theorem limbsOf_singleton (e : Edge) : limbsOf [e] = {e.blur} := rfl

theorem mem_limbsOf {es : List Edge} {e : Edge} : e ∈ limbsOf es ↔ ∃ f ∈ es, f.blur = e := by
  simp [limbsOf]

theorem limbsOf_redirect (es : List Edge) :
    limbsOf (es.map (Edge.redirect n m)) = (limbsOf es).map (Edge.redirect n m) := by
  simp [limbsOf, Function.comp_def, Edge.blur_redirect]

theorem mem_arms {e : Edge} : e ∈ g.arms n ↔ e ∈ g.outgoing n ∧ e.role.isStructural := by
  simp [arms]

theorem mem_limbs {e : Edge} :
    e ∈ g.limbs n ↔ ∃ f ∈ g.outgoing n, f.role.isStructural ∧ f.blur = e := by
  simp [limbs, mem_limbsOf, mem_arms, and_assoc]

theorem blur_mem_limbs {e : Edge} (he : e ∈ g.arms n) : e.blur ∈ g.limbs n :=
  mem_limbsOf.2 ⟨e, he, rfl⟩

theorem arms_of_not_has (h : g.has n = false) : g.arms n = [] := by
  rw [arms, outgoing_of_not_has h]
  rfl

theorem has_of_mem_limbs {e : Edge} (he : e ∈ g.limbs n) : g.has n := by
  by_contra hn
  rw [limbs, arms_of_not_has (by simpa using hn)] at he
  exact absurd he (Multiset.notMem_zero e)

theorem has_of_mem_arms {e : Edge} (he : e ∈ g.arms n) : g.has n :=
  has_of_mem_limbs (blur_mem_limbs he)

theorem Balanced.has_limb (hg : g.Balanced) {e : Edge} (he : e ∈ g.limbs n) : g.has e.node := by
  obtain ⟨f, hf, -, rfl⟩ := mem_limbs.1 he
  exact (hg.has_target hf :)

/-! ## Parents -/

/-- A node is a parent as often as its limbs lead there. -/
theorem count_parents_limbs (hg : g.Balanced) (s d : NodeId) :
    (g.parents d).count s = (g.limbs s).countP (·.node = d) := by
  calc (g.parents d).count s
      = (((g.incoming d).filter (·.node = s)).map Edge.role).countP Role.isStructural := by
        rw [parents, List.count, List.countP_map, List.countP_filter, List.countP_map,
          List.countP_filter]
        refine List.countP_congr fun e _ => ?_
        simp [and_comm]
    _ = (((g.outgoing s).filter (·.node = d)).map Edge.role).countP Role.isStructural :=
        (perm_roles hg).countP_eq _
    _ = (g.limbs s).countP (·.node = d) := by
        rw [limbs, limbsOf, Multiset.coe_countP, List.countP_map, arms, List.countP_filter,
          List.countP_map, List.countP_filter]
        refine List.countP_congr fun e _ => ?_
        simp only [Function.comp_apply, Edge.blur, Bool.and_eq_true, decide_eq_true_iff]
        exact and_comm.trans (and_congr decide_eq_true_iff.symm Iff.rfl)

theorem mem_parents_limbs (hg : g.Balanced) : s ∈ g.parents d ↔ ∃ e ∈ g.limbs s, e.node = d := by
  rw [← List.count_pos_iff, count_parents_limbs hg, Multiset.countP_pos]

/-! ## What lies below -/

theorem Below.limb (h : g.Below root n) {e : Edge} (he : e ∈ g.limbs n) : g.Below root e.node := by
  obtain ⟨f, hf, hs, rfl⟩ := mem_limbs.1 he
  exact (h.child hf hs :)

theorem exists_limb {e : Edge} (he : e ∈ g.outgoing n) (hs : e.role.isStructural) :
    ∃ f ∈ g.limbs n, f.node = e.node := ⟨e.blur, mem_limbs.2 ⟨e, he, hs, rfl⟩, rfl⟩

/-- Nodes all whose parents are among them lie below no other node. -/
theorem not_below_of_closed (hg : g.Balanced) {P : NodeId → Prop}
    (hP : ∀ x, P x → ∀ y ∈ g.parents x, P y) (hroot : ¬ P root) : ∀ x, g.Below root x → ¬ P x := by
  intro x hx
  induction hx with
  | root => exact hroot
  | child _ he hs ih => exact fun h => ih (hP _ h _ ((mem_parents_limbs hg).2 (exists_limb he hs)))

/-! ## Edits -/

theorem arms_congr {h : Graph} (hout : h.outgoing n = g.outgoing n) : h.arms n = g.arms n := by
  rw [arms, arms, hout]

@[simp] theorem arms_add (k : NodeKind) (p : Payload) : (g.add k p).arms n = g.arms n :=
  arms_congr (outgoing_add k p)

@[simp] theorem arms_setKind (k : NodeKind) : (g.setKind m k).arms n = g.arms n :=
  arms_congr (outgoing_setKind k)

theorem arms_link (hs : g.has s) (hr : r.isStructural) :
    (g.link s r d).arms n = if n = s then g.arms n ++ [⟨r, d⟩] else g.arms n := by
  unfold arms
  rw [outgoing_link hs]
  split <;> simp [hr]

theorem setChild_eq_link (h : r ∉ (g.arms s).map Edge.role) (hr : r.isStructural) :
    g.setChild s r d = g.link s r d := by
  have hnone : (g.outgoing s).find? (·.role = r) = none := by
    refine List.find?_eq_none.2 fun e he hrole => h ?_
    have hrole : e.role = r := by simpa using hrole
    exact List.mem_map.2 ⟨e, mem_arms.2 ⟨he, hrole ▸ hr⟩, hrole⟩
  rw [setChild, removeChild, hnone]

theorem arms_removeWhere (p : Edge → Bool) : (g.removeWhere s p).arms n =
    if n = s then (g.arms n).filter fun e => !p e else g.arms n := by
  unfold arms
  rw [outgoing_removeWhere]
  split
  · rw [List.filter_filter, List.filter_filter]
    exact List.filter_congr fun e _ => Bool.and_comm _ _
  · rfl

theorem arms_detach : (g.detach s).arms n = if n = s then [] else g.arms n := by
  rw [detach, arms_removeWhere]
  simp

theorem arms_clearItems : (g.clearItems s).arms n =
    if n = s then (g.arms n).filter fun e => !e.role.isItem else g.arms n := arms_removeWhere _

/-- A replacement redirects the edges to the old node in place, all but those from the new one. -/
theorem outgoing_replace_redirect (hg : g.Balanced) (hne : n ≠ m) : (g.replace n m).outgoing s =
    if s = m then g.outgoing s else (g.outgoing s).map (Edge.redirect n m) := by
  rw [outgoing_replace hne]
  split
  · next hs =>
    have hid : (g.outgoing s).map (turn n m s ((g.incoming n).filter (·.node ≠ m))) =
        (g.outgoing s).map id := List.map_congr_left fun e _ => by simp [turn, hs]
    rw [hid, List.map_id]
  · next hs =>
    refine List.map_congr_left fun e he => ?_
    unfold turn Edge.redirect
    by_cases hnode : e.node = n
    · have hin : (⟨e.role, s⟩ : Edge) ∈ g.incoming n :=
        hg.mem_iff.1 (show (⟨e.role, n⟩ : Edge) ∈ g.outgoing s by rw [← hnode]; exact he)
      rw [if_pos ⟨hnode, List.mem_filter.2 ⟨hin, by simpa using hs⟩⟩, if_pos hnode]
    · rw [if_neg fun h => hnode h.1, if_neg hnode]

/-- If the new node does not point at the old one, a replacement turns all edges. -/
theorem outgoing_replace_of_apart (hg : g.Balanced) (hback : ∀ e ∈ g.outgoing m, e.node ≠ n)
    (s : NodeId) : (g.replace n m).outgoing s = (g.outgoing s).map (Edge.redirect n m) := by
  by_cases hne : n = m
  · have hid : Edge.redirect n n = id := funext fun e => Edge.redirect_self
    simp [replace, ← hne, hid]
  rw [outgoing_replace_redirect hg hne]
  split
  · next hs =>
    have hid : (g.outgoing s).map (Edge.redirect n m) = (g.outgoing s).map id :=
      List.map_congr_left fun e he => if_neg (hback e (hs ▸ he))
    rw [hid, List.map_id]
  · rfl

theorem arms_of_redirect {h : Graph}
    (hout : h.outgoing s = (g.outgoing s).map (Edge.redirect n m)) :
    h.arms s = (g.arms s).map (Edge.redirect n m) := by
  have hrole : (fun e : Edge => e.role.isStructural) ∘ Edge.redirect n m =
      fun e => e.role.isStructural := by
    funext e
    simp
  rw [arms, hout, List.filter_map, hrole]
  rfl

/-- If the new node does not point at the old one, all structural edges to the old one are
redirected. -/
theorem arms_replace (hg : g.Balanced) (hm : ∀ e ∈ g.arms m, e.node ≠ n) :
    (g.replace n m).arms s = (g.arms s).map (Edge.redirect n m) := by
  by_cases hne : n = m
  · have hid : (Edge.redirect n n) = id := funext fun e => Edge.redirect_self
    simp [replace, ← hne, hid]
  have hout := outgoing_replace_redirect (s := s) hg hne
  split at hout
  · next hs =>
    have hid : (g.arms s).map (Edge.redirect n m) = (g.arms s).map id :=
      List.map_congr_left fun e he => if_neg (hm e (hs ▸ he))
    rw [arms_congr hout, hid, List.map_id]
  · exact arms_of_redirect hout

/-! ## Items -/

theorem items_eq_arms (g : Graph) (n : NodeId) :
    g.items n = (Edge.byRole ((g.arms n).filter (·.role.isItem))).map (·.node) := by
  have hfilter : (g.outgoing n).filter (·.role.isItem) = (g.arms n).filter (·.role.isItem) := by
    rw [arms, List.filter_filter]
    refine List.filter_congr fun e _ => ?_
    cases hi : e.role.isItem with
    | true => simp [Role.isStructural_of_isItem hi]
    | false => simp
  rw [items, itemEdges, hfilter]

/-- The limbs of a node are its items and the rest. -/
theorem limbs_eq_items (g : Graph) (n : NodeId) : g.limbs n =
    limbsOf ((g.arms n).filter fun e => !e.role.isItem) +
      ((g.items n).map fun m => (⟨.item 0, m⟩ : Edge) : List Edge) := by
  have hparts : limbsOf (g.arms n) = limbsOf ((g.arms n).filter (·.role.isItem)) +
      limbsOf ((g.arms n).filter fun e => !e.role.isItem) := by
    rw [← limbsOf_append]
    exact Multiset.coe_eq_coe.2 ((List.filter_append_perm _ _).symm.map _)
  have hitems : limbsOf ((g.arms n).filter (·.role.isItem)) =
      ((g.items n).map fun m => (⟨.item 0, m⟩ : Edge) : List Edge) := by
    rw [items_eq_arms, List.map_map]
    refine Multiset.coe_eq_coe.2 (((Edge.perm_byRole _).symm.map Edge.blur).trans ?_)
    refine List.Perm.of_eq (List.map_congr_left fun e he => ?_)
    have hi := (List.mem_filter.1 (Edge.mem_byRole.1 he)).2
    simp [Edge.blur, Role.blur_of_isItem hi]
  rw [limbs, hparts, hitems, add_comm]

/-- The items of a node differ if each has one parent at most. -/
theorem nodup_items_of_parents (hg : g.Balanced) (h : ∀ x ∈ g.items n, (g.parents x).length ≤ 1) :
    (g.items n).Nodup := by
  refine List.nodup_iff_count_le_one.2 fun x => ?_
  by_cases hx : x ∈ g.items n
  · calc (g.items n).count x
        ≤ (g.limbs n).countP (·.node = x) := by
          rw [limbs_eq_items, Multiset.countP_add, Multiset.coe_countP, List.countP_map,
            List.count]
          refine (List.countP_mono_left fun y _ hy => ?_).trans (Nat.le_add_left _ _)
          simpa using hy
      _ = (g.parents x).count n := (count_parents_limbs hg n x).symm
      _ ≤ (g.parents x).length := List.count_le_length
      _ ≤ 1 := h x hx
  · rw [List.count_eq_zero.2 hx]
    exact Nat.zero_le 1

theorem insertByRole_map {f : Edge → Edge} (hf : ∀ e, (f e).role = e.role) (e : Edge) :
    ∀ es : List Edge, (f e).insertByRole (es.map f) = (e.insertByRole es).map f
  | [] => rfl
  | a :: as => by
    rw [List.map_cons, Edge.insertByRole, Edge.insertByRole, hf, hf]
    split
    · rfl
    · rw [insertByRole_map hf e as]
      rfl

theorem byRole_map {f : Edge → Edge} (hf : ∀ e, (f e).role = e.role) :
    ∀ es : List Edge, Edge.byRole (es.map f) = (Edge.byRole es).map f
  | [] => rfl
  | e :: es => by
    have ih := byRole_map hf es
    unfold Edge.byRole at ih ⊢
    rw [List.map_cons, List.foldr_cons, ih, insertByRole_map hf]
    rfl

/-- Redirected edges make redirected items, in their order. -/
theorem items_of_redirect {h : Graph} (ha : h.arms s = (g.arms s).map (Edge.redirect n m)) :
    h.items s = (g.items s).map fun x => if x = n then m else x := by
  have hfilter : (fun e : Edge => e.role.isItem) ∘ Edge.redirect n m = fun e => e.role.isItem := by
    funext e
    simp
  rw [items_eq_arms, items_eq_arms, ha, List.filter_map, hfilter,
    byRole_map fun e => Edge.role_redirect, List.map_map, List.map_map]
  exact List.map_congr_left fun e _ => Edge.node_redirect

end Graph

end TypeFlow
