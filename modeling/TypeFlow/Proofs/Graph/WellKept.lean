import Mathlib.Data.List.Nodup
import TypeFlow.Proofs.Graph.Records
/-!
# Graphs whose two records of edges agree

`Graph.Balanced` says that every edge is recorded as often at its target as at its source, and
`Graph.WellKept` that besides a node has at most one edge of a role. Each edit keeps both:
`wellKept_unlink` for one edge, `wellKept_removeWhere` for a selection, `wellKept_setChild` and
`wellKept_pushItem` for a new edge, and `wellKept_replace` for the edges that are turned from one
node to another. Only new edges can break the second part (`balanced_link`).
-/

namespace TypeFlow

namespace Graph

/-- Every edge is recorded as often at its source as at its target. -/
def Balanced (g : Graph) : Prop :=
  ∀ (s d : NodeId) (r : Role), (g.outgoing s).count ⟨r, d⟩ = (g.incoming d).count ⟨r, s⟩

namespace Balanced

variable {g h : Graph} {s d n : NodeId} {r : Role}

/-- Only the two records matter. -/
theorem congr (hg : g.Balanced) (hout : ∀ n, h.outgoing n = g.outgoing n)
    (hin : ∀ n, h.incoming n = g.incoming n) : h.Balanced := by
  intro s d r
  rw [hout, hin, hg]

theorem mem_iff (hg : g.Balanced) : ⟨r, d⟩ ∈ g.outgoing s ↔ ⟨r, s⟩ ∈ g.incoming d := by
  rw [← List.count_pos_iff, hg, List.count_pos_iff]

/-- An edge leads to a node of the graph. -/
theorem has_target (hg : g.Balanced) {e : Edge} (he : e ∈ g.outgoing s) : g.has e.node := by
  by_contra hn
  have hin := hg.mem_iff.1 (show ⟨e.role, e.node⟩ ∈ g.outgoing s from he)
  rw [incoming_of_not_has (by simpa using hn)] at hin
  exact List.not_mem_nil hin

end Balanced

/-- Both records of edges agree, and the edges from a node differ in their roles. -/
structure WellKept (g : Graph) : Prop where
  balanced : ∀ (s d : NodeId) (r : Role),
    (g.outgoing s).count ⟨r, d⟩ = (g.incoming d).count ⟨r, s⟩
  unique : ∀ s : NodeId, ((g.outgoing s).map Edge.role).Nodup

namespace WellKept

variable {g h : Graph} {s d n : NodeId} {r : Role}

/-- Only the two records matter. -/
theorem congr (hg : g.WellKept) (hout : ∀ n, h.outgoing n = g.outgoing n)
    (hin : ∀ n, h.incoming n = g.incoming n) : h.WellKept where
  balanced := Balanced.congr hg.balanced hout hin
  unique s := by rw [hout]; exact hg.unique s

theorem mem_iff (hg : g.WellKept) : ⟨r, d⟩ ∈ g.outgoing s ↔ ⟨r, s⟩ ∈ g.incoming d :=
  Balanced.mem_iff hg.balanced

/-- An edge leads to a node of the graph. -/
theorem has_target (hg : g.WellKept) {e : Edge} (he : e ∈ g.outgoing s) : g.has e.node :=
  Balanced.has_target hg.balanced he

theorem has_source (_ : g.WellKept) {e : Edge} (he : e ∈ g.outgoing s) : g.has s := by
  by_contra hn
  rw [outgoing_of_not_has (by simpa using hn)] at he
  exact List.not_mem_nil he

/-- Two edges of one role from one node lead to one node. -/
theorem target_unique (hg : g.WellKept) {a b : NodeId} (ha : ⟨r, a⟩ ∈ g.outgoing s)
    (hb : ⟨r, b⟩ ∈ g.outgoing s) : a = b := by
  have := List.inj_on_of_nodup_map (hg.unique s) ha hb rfl
  simpa using this

end WellKept

theorem balanced_add {g : Graph} (hg : g.Balanced) (k : NodeKind) (p : Payload) :
    (g.add k p).Balanced :=
  hg.congr (fun _ => outgoing_add k p) fun _ => incoming_add k p

theorem wellKept_add {g : Graph} (hg : g.WellKept) (k : NodeKind) (p : Payload) :
    (g.add k p).WellKept :=
  hg.congr (fun _ => outgoing_add k p) fun _ => incoming_add k p

theorem wellKept_setKind {g : Graph} {n : NodeId} (hg : g.WellKept) (k : NodeKind) :
    (g.setKind n k).WellKept :=
  hg.congr (fun _ => outgoing_setKind k) fun _ => incoming_setKind k

/-! ## Dropping edges -/

section Drop

variable {g : Graph} {s : NodeId}

/-- Taking away the first edge that passes a test takes away the edge that it finds. -/
theorem eraseP_of_find? {p : Edge → Bool} {e : Edge} :
    ∀ {edges : List Edge}, edges.find? p = some e → edges.eraseP p = edges.erase e
  | f :: fs, h => by
    by_cases hf : p f
    · obtain rfl : f = e := by simpa [hf] using h
      simp [hf]
    · have hfe : f ≠ e := by
        rintro rfl
        exact hf (List.find?_some h)
      rw [List.find?_cons_of_neg hf] at h
      rw [List.eraseP_cons_of_neg hf, List.erase_cons_tail (by simpa using hfe),
        eraseP_of_find? h]

/-- Drop both records of an edge. -/
def unlink (g : Graph) (s : NodeId) (e : Edge) : Graph :=
  (g.setOutgoing s ((g.outgoing s).erase e)).dropIncoming s e

theorem outgoing_unlink {e : Edge} (m : NodeId) : (g.unlink s e).outgoing m =
    if m = s then (g.outgoing m).erase e else g.outgoing m := by
  rw [unlink, outgoing_dropIncoming]
  exact outgoing_setOutgoing_map (f := fun es => es.erase e) rfl

theorem balanced_unlink (hg : g.Balanced) (e : Edge) : (g.unlink s e).Balanced := by
  intro s' d r
  rw [outgoing_unlink, unlink, incoming_dropIncoming, incoming_setOutgoing]
  have hb := hg s' d r
  rcases e with ⟨q, t⟩
  split
  · next hs =>
    subst hs
    by_cases hd : d = t
    · subst hd
      simp [List.count_erase, hb]
    · simp [hb, hd]
  · next hs =>
    split
    · simp [hb, List.count_erase, Ne.symm hs]
    · exact hb

theorem wellKept_unlink (hg : g.WellKept) (e : Edge) : (g.unlink s e).WellKept where
  balanced := balanced_unlink hg.balanced e
  unique s' := by
    rw [outgoing_unlink]
    split
    · exact (hg.unique s').sublist (List.erase_sublist.map _)
    · exact hg.unique s'

theorem removeChild_eq (g : Graph) (s : NodeId) (r : Role) :
    g.removeChild s r = g ∨ ∃ e, g.removeChild s r = g.unlink s e := by
  unfold removeChild
  split
  · exact Or.inl rfl
  · next e he => exact Or.inr ⟨e, by rw [unlink, eraseP_of_find? he]⟩

theorem balanced_removeChild (hg : g.Balanced) (r : Role) : (g.removeChild s r).Balanced := by
  rcases removeChild_eq g s r with h | ⟨e, h⟩
  · rwa [h]
  · rw [h]
    exact balanced_unlink hg e

theorem wellKept_removeChild (hg : g.WellKept) (r : Role) : (g.removeChild s r).WellKept := by
  rcases removeChild_eq g s r with h | ⟨e, h⟩
  · rwa [h]
  · rw [h]
    exact wellKept_unlink hg e

@[simp] theorem outgoing_foldl_dropIncoming (m : NodeId) : ∀ (edges : List Edge) (g : Graph),
    (edges.foldl (fun h e => h.dropIncoming s e) g).outgoing m = g.outgoing m
  | [], _ => rfl
  | e :: es, g => by
    rw [List.foldl_cons, outgoing_foldl_dropIncoming m es, outgoing_dropIncoming]

/-- Dropping records one by one takes away as many as there are. -/
theorem count_incoming_foldl (s' d : NodeId) (r : Role) : ∀ (edges : List Edge) (g : Graph),
    ((edges.foldl (fun h e => h.dropIncoming s e) g).incoming d).count ⟨r, s'⟩ =
      (g.incoming d).count ⟨r, s'⟩ - if s' = s then edges.count ⟨r, d⟩ else 0
  | [], _ => by simp
  | e :: es, g => by
    rw [List.foldl_cons, count_incoming_foldl s' d r es, incoming_dropIncoming]
    rcases e with ⟨q, t⟩
    by_cases hs : s' = s
    · by_cases hd : d = t
      · simp only [hs, hd, if_true, List.count_erase, List.count_cons, beq_iff_eq,
          Edge.mk.injEq, and_true]
        omega
      · simp [hd, hs, Ne.symm hd]
    · split
      · simp [hs]
      · rfl

theorem outgoing_removeWhere (p : Edge → Bool) (m : NodeId) : (g.removeWhere s p).outgoing m =
    if m = s then (g.outgoing m).filter fun e => !p e else g.outgoing m := by
  rw [removeWhere, outgoing_foldl_dropIncoming]
  exact outgoing_setOutgoing_map (f := fun es => es.filter fun e => !p e) rfl

theorem balanced_removeWhere (hg : g.Balanced) (p : Edge → Bool) :
    (g.removeWhere s p).Balanced := by
  intro s' d r
  rw [outgoing_removeWhere, removeWhere, count_incoming_foldl, incoming_setOutgoing, ← hg]
  split
  · next hs =>
    subst hs
    have hparts : (g.outgoing s').count ⟨r, d⟩ =
        ((g.outgoing s').filter p).count ⟨r, d⟩ +
          ((g.outgoing s').filter fun e => !p e).count ⟨r, d⟩ := by
      rw [← List.count_append]
      exact ((List.filter_append_perm p _).count_eq _).symm
    omega
  · rfl

theorem wellKept_removeWhere (hg : g.WellKept) (p : Edge → Bool) :
    (g.removeWhere s p).WellKept where
  balanced := balanced_removeWhere hg.balanced p
  unique s' := by
    rw [outgoing_removeWhere]
    split
    · exact (hg.unique s').sublist (List.filter_sublist.map _)
    · exact hg.unique s'

end Drop

/-! ## Adding an edge -/

section Add

variable {g : Graph} {s d : NodeId} {r : Role}

theorem balanced_link (hg : g.Balanced) (hs : g.has s) (hd : g.has d) (r : Role) :
    (g.link s r d).Balanced := by
  intro s' d' r'
  rw [outgoing_link hs, incoming_link hd]
  have hb := hg s' d' r'
  by_cases hs' : s' = s
  · subst hs'
    by_cases hd' : d' = d
    · subst hd'
      simp [hb, List.count_cons]
    · simp [hb, hd', Ne.symm hd']
  · by_cases hd' : d' = d
    · subst hd'
      simp [hb, hs', Ne.symm hs']
    · simp [hb, hs', hd']

theorem wellKept_link (hg : g.WellKept) (hs : g.has s) (hd : g.has d)
    (hr : r ∉ (g.outgoing s).map Edge.role) : (g.link s r d).WellKept where
  balanced := balanced_link hg.balanced hs hd r
  unique s' := by
    rw [outgoing_link hs]
    split
    · next h =>
      subst h
      rw [List.map_append, List.map_singleton, ← List.concat_eq_append]
      exact List.Nodup.concat hr (hg.unique s')
    · exact hg.unique s'

/-- Without its edge of a role, a node has no edge of the role left. -/
theorem role_not_mem_removeChild (hg : g.WellKept) :
    r ∉ ((g.removeChild s r).outgoing s).map Edge.role := by
  unfold removeChild
  split
  · next hnone => simpa using hnone
  · next e he =>
    have hrole : e.role = r := by simpa using List.find?_some he
    have hmem : e ∈ g.outgoing s := List.mem_of_find?_eq_some he
    have hout :
        ((g.setOutgoing s ((g.outgoing s).eraseP (·.role = r))).dropIncoming s e).outgoing s =
          (g.outgoing s).erase e := by
      rw [eraseP_of_find? he]
      simpa [unlink] using outgoing_unlink (g := g) (s := s) (e := e) s
    rw [hout]
    intro hr
    obtain ⟨f, hf, hfr⟩ := List.mem_map.1 hr
    have hnodup : (g.outgoing s).Nodup := List.Nodup.of_map Edge.role (hg.unique s)
    obtain ⟨hne, hf⟩ := hnodup.mem_erase_iff.1 hf
    exact hne (List.inj_on_of_nodup_map (hg.unique s) hf hmem (hfr.trans hrole.symm))

@[simp] theorem has_removeChild (n : NodeId) : (g.removeChild s r).has n = g.has n := by
  rcases removeChild_eq g s r with h | ⟨e, h⟩
  · rw [h]
  · simp [h, unlink]

theorem wellKept_setChild (hg : g.WellKept) (hs : g.has s) (hd : g.has d) (r : Role) :
    (g.setChild s r d).WellKept :=
  wellKept_link (wellKept_removeChild hg r) (by simpa using hs) (by simpa using hd)
    (role_not_mem_removeChild hg)

theorem toNat_succ {i : UInt32} (hi : i ≠ 0xFFFFFFFF) : (i + 1).toNat = i.toNat + 1 := by
  have hne : i.toNat ≠ 0xFFFFFFFF := fun h => hi (UInt32.toNat_inj.1 h)
  have hlt := i.toNat_lt
  rw [UInt32.toNat_add]
  simp only [UInt32.toNat_one]
  omega

/-- The indices in use are those of the item edges. -/
theorem mem_indices {i : UInt32} :
    i ∈ (g.outgoing s).filterMap (·.role.index?) ↔ ∃ e ∈ g.outgoing s, e.role = .item i := by
  rw [List.mem_filterMap]
  refine exists_congr fun e => and_congr_right fun _ => ?_
  cases e.role <;> simp [Role.index?]

/-- An index below the last one lies below the index after all of a list. -/
theorem lt_foldl_max : ∀ (is : List UInt32) (top i : UInt32), (∀ j ∈ is, j ≠ 0xFFFFFFFF) →
    i < top ∨ i ∈ is → i < is.foldl (fun top i => max top (i + 1)) top
  | [], _, _, _, h => by simpa using h
  | j :: js, top, i, hlast, h => by
    rw [List.foldl_cons]
    refine lt_foldl_max js _ i (fun k hk => hlast k (List.mem_cons_of_mem _ hk)) ?_
    have hj : j < j + 1 := by
      rw [UInt32.lt_iff_toNat_lt, toNat_succ (hlast j List.mem_cons_self)]
      exact Nat.lt_succ_self _
    have hmax : max top (j + 1) = if top ≤ j + 1 then j + 1 else top := rfl
    rw [hmax]
    rcases h with h | h
    · refine Or.inl ?_
      split
      · next hle => exact UInt32.lt_of_lt_of_le h hle
      · exact h
    · rcases List.mem_cons.1 h with rfl | h
      · refine Or.inl ?_
        split
        · exact hj
        · next hle => exact UInt32.lt_trans hj (UInt32.not_le.1 hle)
      · exact Or.inr h

theorem indices_ne_last (hlast : ∀ e ∈ g.outgoing s, e.role ≠ .item 0xFFFFFFFF) :
    ∀ i ∈ (g.outgoing s).filterMap (·.role.index?), i ≠ 0xFFFFFFFF := by
  rintro i hi rfl
  obtain ⟨e, he, hr⟩ := mem_indices.1 hi
  exact hlast e he hr

/-- The next index lies behind those in use, unless the last possible one is among them. -/
theorem lt_nextIndex (hlast : ∀ e ∈ g.outgoing s, e.role ≠ .item 0xFFFFFFFF) :
    ∀ e ∈ g.outgoing s, ∀ i, e.role = .item i → i < g.nextIndex s :=
  fun e he i hi => lt_foldl_max _ 0 i (indices_ne_last hlast) (Or.inr (mem_indices.2 ⟨e, he, hi⟩))

theorem nextIndex_not_mem (hlast : ∀ e ∈ g.outgoing s, e.role ≠ .item 0xFFFFFFFF) :
    .item (g.nextIndex s) ∉ (g.outgoing s).map Edge.role := by
  intro hmem
  obtain ⟨e, he, hrole⟩ := List.mem_map.1 hmem
  exact UInt32.lt_irrefl _ (lt_nextIndex hlast e he _ hrole)

theorem wellKept_pushItem (hg : g.WellKept) (hs : g.has s) (hd : g.has d)
    (hlast : ∀ e ∈ g.outgoing s, e.role ≠ .item 0xFFFFFFFF) : (g.pushItem s d).WellKept :=
  wellKept_link hg hs hd (nextIndex_not_mem hlast)

end Add

/-! ## Replacing a node -/

section Replace

variable {g : Graph} {old new : NodeId}

/-- An edge to `old`, turned to `new` if its record at `old` is among those that are moved. -/
def turn (old new s : NodeId) (moved : List Edge) (e : Edge) : Edge :=
  if e.node = old ∧ ⟨e.role, s⟩ ∈ moved then ⟨e.role, new⟩ else e

@[simp] theorem role_turn (s : NodeId) (moved : List Edge) (e : Edge) :
    (turn old new s moved e).role = e.role := by
  unfold turn
  split <;> rfl

theorem outgoing_redirectFrom (src s : NodeId) (r : Role) :
    (g.redirectFrom old new src r).outgoing s =
      (g.outgoing s).map (turn old new s [⟨r, src⟩]) := by
  have hmap := outgoing_setOutgoing_map (g := g) (n := src) (m := s)
    (f := List.map fun e => if e = ⟨r, old⟩ then ⟨r, new⟩ else e) rfl
  rw [redirectFrom, hmap]
  split
  · next h =>
    refine List.map_congr_left fun e _ => ?_
    rcases e with ⟨q, t⟩
    by_cases hq : q = r <;> simp [turn, h, hq, and_comm]
  · next h =>
    have hid : (g.outgoing s).map (turn old new s [⟨r, src⟩]) = (g.outgoing s).map id :=
      List.map_congr_left fun e _ => by simp [turn, h]
    rw [hid, List.map_id]

/-- An edge that is turned is not turned again, since it no longer leads to `old`. -/
theorem turn_turn (hne : old ≠ new) (s : NodeId) (a : Edge) (moved : List Edge) (e : Edge) :
    turn old new s moved (turn old new s [a] e) = turn old new s (a :: moved) e := by
  unfold turn
  by_cases hnode : e.node = old
  · by_cases ha : (⟨e.role, s⟩ : Edge) = a <;> simp [hnode, ha, Ne.symm hne]
  · simp [hnode]

theorem outgoing_foldl_redirectFrom (hne : old ≠ new) (s : NodeId) :
    ∀ (moved : List Edge) (g : Graph),
      (moved.foldl (fun h e => h.redirectFrom old new e.node e.role) g).outgoing s =
        (g.outgoing s).map (turn old new s moved)
  | [], g => by
    have hid : (g.outgoing s).map (turn old new s []) = (g.outgoing s).map id :=
      List.map_congr_left fun e _ => by simp [turn]
    rw [hid, List.map_id]
    rfl
  | a :: moved, g => by
    rw [List.foldl_cons, outgoing_foldl_redirectFrom hne s moved, outgoing_redirectFrom,
      List.map_map]
    exact List.map_congr_left fun e _ => turn_turn hne s a moved e

@[simp] theorem incoming_foldl_redirectFrom (d : NodeId) : ∀ (moved : List Edge) (g : Graph),
    (moved.foldl (fun h e => h.redirectFrom old new e.node e.role) g).incoming d = g.incoming d
  | [], _ => rfl
  | a :: moved, g => by
    rw [List.foldl_cons, incoming_foldl_redirectFrom d moved, redirectFrom, incoming_setOutgoing]

@[simp] theorem has_foldl_redirectFrom (d : NodeId) : ∀ (moved : List Edge) (g : Graph),
    (moved.foldl (fun h e => h.redirectFrom old new e.node e.role) g).has d = g.has d
  | [], _ => rfl
  | a :: moved, g => by
    rw [List.foldl_cons, has_foldl_redirectFrom d moved, redirectFrom, has_setOutgoing]

theorem outgoing_replace (hne : old ≠ new) (s : NodeId) : (g.replace old new).outgoing s =
    (g.outgoing s).map (turn old new s ((g.incoming old).filter (·.node ≠ new))) := by
  simp only [replace, redirected, hne, if_false, outgoing_setIncoming]
  exact outgoing_foldl_redirectFrom hne s _ g

theorem incoming_replace (hne : old ≠ new) (hnew : g.has new) (d : NodeId) :
    (g.replace old new).incoming d =
      if d = new then g.incoming new ++ (g.incoming old).filter (·.node ≠ new)
      else if d = old then (g.incoming old).filter (·.node = new) else g.incoming d := by
  simp only [replace, redirected, hne, if_false]
  rw [incoming_setIncoming]
  by_cases hd : d = new
  · simp [hd, hnew, incoming_setIncoming, Ne.symm hne]
  · rw [if_neg (by simp [hd]), if_neg hd, incoming_setIncoming, incoming_foldl_redirectFrom]
    by_cases hold : d = old
    · subst hold
      cases hg : g.has d
      · simp [hg, incoming_of_not_has hg]
      · simp [hg]
    · simp [hold]

/-- How often an edge leaves a node after its edges to `old` were turned to `new`. -/
theorem count_map_turn (hne : old ≠ new) {s : NodeId} {moved edges : List Edge}
    (hall : ∀ e ∈ edges, e.node = old → ⟨e.role, s⟩ ∈ moved) (r : Role) (d : NodeId) :
    (edges.map (turn old new s moved)).count ⟨r, d⟩ =
      if d = new then edges.count ⟨r, new⟩ + edges.count ⟨r, old⟩
      else if d = old then 0 else edges.count ⟨r, d⟩ := by
  induction edges with
  | nil => simp
  | cons e es ih =>
    have ih := ih fun f hf => hall f (List.mem_cons_of_mem _ hf)
    have he := hall e List.mem_cons_self
    rcases e with ⟨q, t⟩
    rw [List.map_cons, List.count_cons, ih]
    by_cases ht : t = old
    · subst ht
      have hturn : turn t new s moved ⟨q, t⟩ = ⟨q, new⟩ := by simp [turn, he rfl]
      rw [hturn]
      by_cases hd : d = new
      · simp [hd, List.count_cons, hne, Nat.add_assoc]
      · by_cases hold : d = t
        · subst hold
          simp [hne, Ne.symm hne]
        · simp [hd, hold, Ne.symm hd, Ne.symm hold]
    · have hturn : turn old new s moved ⟨q, t⟩ = ⟨q, t⟩ := by simp [turn, ht]
      rw [hturn]
      by_cases hd : d = new
      · simp only [hd, if_true, List.count_cons, beq_iff_eq, Edge.mk.injEq, ht, and_false, if_false]
        omega
      · by_cases hold : d = old
        · simp [hold, ht, hne]
        · simp [hd, hold, List.count_cons]

theorem balanced_replace (hg : g.Balanced) (hnew : g.has new) : (g.replace old new).Balanced := by
  by_cases hne : old = new
  · simpa [replace, hne] using hg
  intro s d r
  rw [outgoing_replace hne, incoming_replace hne hnew]
  by_cases hs : s = new
  · -- the edges from `new` stay as they are
    subst hs
    have hid : (g.outgoing s).map (turn old s s ((g.incoming old).filter (·.node ≠ s))) =
        (g.outgoing s).map id :=
      List.map_congr_left fun e _ => by simp [turn]
    rw [hid, List.map_id, hg]
    by_cases hd : d = s
    · subst hd
      rw [if_pos rfl, List.count_append]
      have hnone : ((g.incoming old).filter (·.node ≠ d)).count ⟨r, d⟩ = 0 :=
        List.count_eq_zero.2 (by simp)
      omega
    · by_cases hold : d = old
      · subst hold
        rw [if_neg hd, if_pos rfl, List.count_filter (by simp)]
      · simp [hd, hold]
  · have hmoved : ∀ q : Role, ((g.incoming old).filter (·.node ≠ new)).count ⟨q, s⟩ =
        (g.incoming old).count ⟨q, s⟩ := fun q => List.count_filter (by simp [hs])
    rw [count_map_turn hne]
    · by_cases hd : d = new
      · rw [if_pos hd, if_pos hd, List.count_append, hmoved, hg, hg]
      · by_cases hold : d = old
        · have hnone : ((g.incoming old).filter (·.node = new)).count ⟨r, s⟩ = 0 :=
            List.count_eq_zero.2 (by simp [hs])
          rw [if_neg hd, if_pos hold, if_neg hd, if_pos hold, hnone]
        · rw [if_neg hd, if_neg hold, if_neg hd, if_neg hold, hg]
    · rintro ⟨q, t⟩ he rfl
      exact List.mem_filter.2 ⟨hg.mem_iff.1 he, by simp [hs]⟩

theorem wellKept_replace (hg : g.WellKept) (hnew : g.has new) : (g.replace old new).WellKept := by
  by_cases hne : old = new
  · simpa [replace, hne] using hg
  refine ⟨balanced_replace hg.balanced hnew, fun s => ?_⟩
  rw [outgoing_replace hne, List.map_map]
  have hroles : (g.outgoing s).map
      (Edge.role ∘ turn old new s ((g.incoming old).filter (·.node ≠ new))) =
      (g.outgoing s).map Edge.role := List.map_congr_left fun e _ => role_turn s _ e
  rw [hroles]
  exact hg.unique s

end Replace

end Graph

end TypeFlow
