import TypeFlow.Lowering
import TypeFlow.Proofs.Graph.Refill
import TypeFlow.Proofs.Program.Composed
/-!
# Mutations that fit

A mutation of a composed program fits if the new edges lead from nodes of the program to nodes that
may stand there, by the kinds that the nodes have in the end (`Fitting`). Mutations that fit keep a
graph `Wired`, one by one and in a row (`Wired.mutate`, `Wired.foldl`), and what a node has that it
must have it does not lose (`hasChild_foldl`).

No list may get more items than there are numbers for their places: `fill` follows the mutations
with a bound on the numbers in use, and `Roomy` asks for room at each new item.
-/

namespace TypeFlow

namespace Mutation

/-- A bound on the places in use in the list of each node, after a mutation. -/
def fill (f : NodeId → Nat) : Mutation → NodeId → Nat
  | .pushItem s _ => Function.update f s (f s + 1)
  | .clearItems s => Function.update f s 0
  | _ => f

/-- The places of a list are numbered by 32 bits, of which one must be left for a new item. -/
def HasPlace (f : NodeId → Nat) : Mutation → Prop
  | .pushItem s _ => f s < 2 ^ 32
  | _ => True

/-- There is a place for each new item when its turn comes. -/
def Roomy : (NodeId → Nat) → List Mutation → Prop
  | _, [] => True
  | f, m :: ms => m.HasPlace f ∧ Roomy (m.fill f) ms

/-- Whether a mutation gives a node a new item. -/
def pushesTo (s : NodeId) : Mutation → Bool
  | .pushItem s' _ => s' = s
  | _ => false

theorem fill_le (f : NodeId → Nat) (s : NodeId) (m : Mutation) :
    m.fill f s ≤ f s + if m.pushesTo s then 1 else 0 := by
  cases m with
  | pushItem s' d =>
    rw [fill, Function.update_apply]
    by_cases hs : s = s' <;> simp [pushesTo, hs]
  | clearItems s' =>
    rw [fill, Function.update_apply]
    split <;> simp
  | _ => exact Nat.le_add_right _ _

theorem roomy_append : ∀ {as bs : List Mutation} {f : NodeId → Nat},
    Roomy f (as ++ bs) ↔ Roomy f as ∧ Roomy (as.foldl fill f) bs
  | [], _, _ => (and_iff_right trivial).symm
  | a :: as, bs, f => by
    rw [List.cons_append, Roomy, roomy_append, Roomy, List.foldl_cons, and_assoc]

theorem roomy_pushAll (s : NodeId) : ∀ (ds : List NodeId) {f : NodeId → Nat},
    f s + ds.length ≤ 2 ^ 32 → Roomy f (ds.map (.pushItem s ·))
  | [], _, _ => trivial
  | d :: ds, f, h => by
    rw [List.length_cons] at h
    refine ⟨by rw [HasPlace]; omega, roomy_pushAll s ds ?_⟩
    rw [fill, Function.update_self]
    omega

/-- A list that is emptied first has room for as many items as there are numbers. -/
theorem roomy_refill (s : NodeId) {ds : List NodeId} (h : ds.length ≤ 2 ^ 32) (f : NodeId → Nat) :
    Roomy f (.clearItems s :: ds.map (.pushItem s ·)) := by
  refine ⟨trivial, roomy_pushAll s ds ?_⟩
  rwa [fill, Function.update_self, Nat.zero_add]

/-- There is room if all new items find a place in the lists as they are. -/
theorem roomy_of_countP : ∀ {ms : List Mutation} {f : NodeId → Nat},
    (∀ s, f s + ms.countP (pushesTo s) ≤ 2 ^ 32) → Roomy f ms
  | [], _, _ => trivial
  | m :: ms, f, h => by
    refine ⟨?_, roomy_of_countP fun s => ?_⟩
    · cases m with
      | pushItem s d =>
        have hs := h s
        simp only [List.countP_cons, pushesTo, decide_true, if_true] at hs
        simp only [HasPlace]
        omega
      | _ => trivial
    · have hs := h s
      have hfill := fill_le f s m
      rw [List.countP_cons] at hs
      omega

end Mutation

namespace Lowering

open TypeFlow.Graph Program

variable {S : NodeId → Prop} {K : NodeId → NodeKind} {f : NodeId → Nat} {h : Graph}
  {n x s d : NodeId} {r : Role} {m : Mutation} {ms : List Mutation}

/-! ## Edges that fit -/

/-- A node may stand at the end of an edge, if it is no part of a form. -/
def Suits (K : NodeId → NodeKind) (s : NodeId) (r : Role) (d : NodeId) : Prop :=
  isPart (K d) = false → takes (K s) r (stead (K d))

theorem Suits.congr (hs : Suits K s r d) {r' : Role} (hr : r'.blur = r.blur) : Suits K s r' d :=
  fun hd => by rw [← takes_blur, hr, takes_blur]; exact hs hd

/-- What a mutation may do among the nodes of `S`, whose kinds in the end are told by `K`. -/
def Fitting (S : NodeId → Prop) (K : NodeId → NodeKind) : Mutation → Prop
  | .setChild s r d => S s ∧ S d ∧ r.isItem = false ∧ r ≠ .ref ∧ r ≠ .locals ∧ Suits K s r d
  | .pushItem s d => S s ∧ S d ∧ Suits K s (.item 0) d
  | .clearItems s => S s
  | .detach s => S s ∧ parts (K s) = []
  | .replace old new => S old ∧ S new ∧ isPart (K old) = false ∧
      ∀ k r, takes k r (stead (K old)) → takes k r (stead (K new))
  | .setKind n k => S n ∧ K n = k
  | _ => False

/-- A graph on the way of mutations that fit: edges lead from nodes of `S` to nodes of `S` that may
stand there, and `f` bounds the places in use. -/
structure Wired (S : NodeId → Prop) (K : NodeId → NodeKind) (f : NodeId → Nat) (h : Graph) :
    Prop where
  kept : h.WellKept
  has : ∀ x, S x → h.has x
  plain : ∀ n, ∀ e ∈ h.outgoing n, e.role ≠ .ref ∧ e.role ≠ .locals
  edges : ∀ x, S x → ∀ e ∈ h.arms x, S e.node ∧ Suits K x e.role e.node
  room : ∀ x, ∀ e ∈ h.outgoing x, ∀ i, e.role = .item i → i.toNat < f x

theorem has_names (hm : Fitting S K m) : ∀ x ∈ m.names, S x := by
  cases m with
  | setChild s r d | pushItem s d | replace s d =>
    intro x hx
    have hx : x = s ∨ x = d := by simpa [Mutation.names] using hx
    rcases hx with rfl | rfl
    · exact hm.1
    · exact hm.2.1
  | clearItems s =>
    intro x hx
    obtain rfl := List.mem_singleton.1 hx
    exact hm
  | detach s | setKind s =>
    intro x hx
    obtain rfl := List.mem_singleton.1 hx
    exact hm.1
  | add | setPayload | removeChild => exact hm.elim

/-- Only nodes that are added are new. -/
theorem has_mutate (hm : Fitting S K m) : (h.mutate m).has x = h.has x := by
  refine has_congr ?_
  cases m with
  | setChild => exact (sameNodes_setChild _ _ _).size
  | pushItem => exact (sameNodes_link _ _ _).size
  | clearItems | detach => exact (sameNodes_removeWhere _ _).size
  | replace => exact (sameNodes_replace _ _).size
  | setKind => exact size_update _
  | add | setPayload | removeChild => exact hm.elim

theorem payload_mutate (hm : Fitting S K m) : (h.mutate m).payload x = h.payload x := by
  cases m with
  | setChild => exact (sameNodes_setChild _ _ _).payload x
  | pushItem => exact (sameNodes_link _ _ _).payload x
  | clearItems | detach => exact (sameNodes_removeWhere _ _).payload x
  | replace => exact (sameNodes_replace _ _).payload x
  | setKind => exact payload_setKind _
  | add | setPayload | removeChild => exact hm.elim

/-- A node that has its kind in the end keeps it. -/
theorem kind_mutate (hm : Fitting S K m) (hx : h.kind x = K x) : (h.mutate m).kind x = K x := by
  cases m with
  | setChild => exact ((sameNodes_setChild _ _ _).kind x).trans hx
  | pushItem => exact ((sameNodes_link _ _ _).kind x).trans hx
  | clearItems | detach => exact ((sameNodes_removeWhere _ _).kind x).trans hx
  | replace => exact ((sameNodes_replace _ _).kind x).trans hx
  | setKind n k =>
    rw [mutate, kind_setKind]
    split
    · next hxn => rw [hxn.1, hm.2]
    · exact hx
  | add | setPayload | removeChild => exact hm.elim

/-! ## Places in lists -/

theorem Wired.hasRoom (hw : Wired S K f h) (hs : f s < 2 ^ 32) : h.hasRoom s := by
  refine List.all_eq_true.2 fun e he => ?_
  simpa using FilledTo.ne_last (hw.room s) hs e he

theorem Wired.legal (hw : Wired S K f h) (hm : Fitting S K m) (hplace : m.HasPlace f) :
    m.legal h := by
  have hhas : ∀ x ∈ m.names, h.has x := fun x hx => hw.has x (has_names hm x hx)
  cases m with
  | setChild s r d | replace s d =>
    simp [Mutation.legal, hhas s (by simp [Mutation.names]), hhas d (by simp [Mutation.names])]
  | pushItem s d =>
    simp [Mutation.legal, hhas s (by simp [Mutation.names]), hhas d (by simp [Mutation.names]),
      hw.hasRoom hplace]
  | clearItems s | detach s | setKind s => exact hhas s (by simp [Mutation.names])
  | add | setPayload | removeChild => exact hm.elim

/-! ## One mutation -/

/-- The edges of a node after a mutation: those from before, maybe turned, and the new one. -/
inductive EdgeAfter (h : Graph) (x : NodeId) : Mutation → Edge → Prop
  | kept {m : Mutation} {e : Edge} (he : e ∈ h.outgoing x)
      (hlist : ∀ s, m = .clearItems s → x = s → e.role.isItem = false) : EdgeAfter h x m e
  | child {r : Role} {d : NodeId} : EdgeAfter h x (.setChild x r d) ⟨r, d⟩
  | item {d : NodeId} : EdgeAfter h x (.pushItem x d) ⟨.item (h.nextIndex x), d⟩
  | turned {old new : NodeId} {r : Role} (he : ⟨r, old⟩ ∈ h.outgoing x) :
      EdgeAfter h x (.replace old new) ⟨r, new⟩

theorem edgeAfter_of_mem (hm : Fitting S K m) (hhas : ∀ x, S x → h.has x) {e : Edge}
    (he : e ∈ (h.mutate m).outgoing x) : EdgeAfter h x m e := by
  have hsource : ∀ y ∈ m.names, h.has y := fun y hy => hhas y (has_names hm y hy)
  cases m with
  | setChild s r d =>
    rw [mutate, outgoing_setChild_eraseP (hsource s (by simp [Mutation.names]))] at he
    split at he
    · next hxs =>
      subst hxs
      rcases List.mem_append.1 he with he | he
      · exact .kept (List.mem_of_mem_eraseP he) (by rintro _ ⟨⟩)
      · obtain rfl := List.mem_singleton.1 he
        exact .child
    · exact .kept he (by rintro _ ⟨⟩)
  | pushItem s d =>
    rw [mutate, pushItem, outgoing_link (hsource s (by simp [Mutation.names]))] at he
    split at he
    · next hxs =>
      subst hxs
      rcases List.mem_append.1 he with he | he
      · exact .kept he (by rintro _ ⟨⟩)
      · obtain rfl := List.mem_singleton.1 he
        exact .item
    · exact .kept he (by rintro _ ⟨⟩)
  | clearItems s =>
    rw [mutate, clearItems, outgoing_removeWhere] at he
    split at he
    · obtain ⟨he, hitem⟩ := List.mem_filter.1 he
      exact .kept he fun _ _ _ => by simpa using hitem
    · next hxs =>
      refine .kept he fun s' hs' hxs' => absurd ?_ hxs
      cases hs'
      exact hxs'
  | detach s =>
    rw [mutate, detach, outgoing_removeWhere] at he
    split at he
    · exact .kept (List.mem_filter.1 he).1 (by rintro _ ⟨⟩)
    · exact .kept he (by rintro _ ⟨⟩)
  | replace old new =>
    by_cases hne : old = new
    · rw [mutate, replace, if_pos hne] at he
      exact .kept he (by rintro _ ⟨⟩)
    · rw [mutate, outgoing_replace hne] at he
      obtain ⟨e', he', rfl⟩ := List.mem_map.1 he
      unfold turn
      split
      · next hturn =>
        have hold : (⟨e'.role, old⟩ : Edge) ∈ h.outgoing x := hturn.1 ▸ he'
        exact .turned hold
      · exact .kept he' (by rintro _ ⟨⟩)
  | setKind n k =>
    rw [mutate, outgoing_setKind] at he
    exact .kept he (by rintro _ ⟨⟩)
  | add | setPayload | removeChild => exact hm.elim

/-- A mutation that fits, with room for a new item, keeps the graph wired. -/
theorem Wired.mutate (hw : Wired S K f h) (hm : Fitting S K m) (hplace : m.HasPlace f) :
    Wired S K (m.fill f) (h.mutate m) where
  kept := wellKept_mutate hw.kept (hw.legal hm hplace)
  has x hx := by rw [has_mutate hm]; exact hw.has x hx
  plain n e he := by
    cases edgeAfter_of_mem hm hw.has he with
    | kept hold => exact hw.plain n e hold
    | child => exact ⟨hm.2.2.2.1, hm.2.2.2.2.1⟩
    | item => exact ⟨nofun, nofun⟩
    | turned hold => exact (hw.plain n _ hold :)
  edges x hx e he := by
    obtain ⟨he, hr⟩ := mem_arms.1 he
    cases edgeAfter_of_mem hm hw.has he with
    | kept hold => exact hw.edges x hx e (mem_arms.2 ⟨hold, hr⟩)
    | child => exact ⟨hm.2.1, hm.2.2.2.2.2⟩
    | item => exact ⟨hm.2.1, hm.2.2.congr rfl⟩
    | turned hold =>
      obtain ⟨-, hnew, hpart, htakes⟩ := hm
      exact ⟨hnew, fun _ => htakes _ _ ((hw.edges x hx _ (mem_arms.2 ⟨hold, hr⟩)).2 hpart)⟩
  room x e he i hi := by
    have hgrow : ∀ j : UInt32, j.toNat < f x → (∀ s, m = .clearItems s → x ≠ s) →
        j.toNat < m.fill f x := by
      intro j hj hclear
      cases m with
      | pushItem s d =>
        rw [Mutation.fill, Function.update_apply]
        split
        · next hxs => subst hxs; omega
        · exact hj
      | clearItems s => rwa [Mutation.fill, Function.update_of_ne (hclear s rfl)]
      | _ => exact hj
    cases edgeAfter_of_mem hm hw.has he with
    | kept hold hlist =>
      refine hgrow i (hw.room x e hold i hi) fun s hs hxs => ?_
      have hitem := hlist s hs hxs
      rw [hi] at hitem
      cases hitem
    | child =>
      have hitem := hm.2.2.1
      obtain rfl : _ = Role.item i := hi
      cases hitem
    | item =>
      obtain rfl := Role.item.inj hi
      have hle := FilledTo.toNat_nextIndex_le (hw.room x) hplace
      rw [Mutation.fill, Function.update_self]
      omega
    | turned hold => exact hw.room x _ hold i hi

/-! ## What nodes must have -/

theorem not_isItem_of_mem_parts {k : NodeKind} (hr : r ∈ parts k) : r.isItem = false := by
  have hrequired : ∀ k, r ∈ required k → r.isItem = false := by
    intro k hr
    unfold required at hr
    split at hr <;> simp at hr
    all_goals rcases hr with rfl | rfl <;> rfl
  unfold parts at hr
  split at hr
  · obtain rfl := List.mem_singleton.1 hr
    rfl
  · exact hrequired _ (List.mem_filter.1 hr).1

theorem hasChild_iff {g : Graph} : g.hasChild x r ↔ ∃ e ∈ g.outgoing x, e.role = r := by
  rw [hasChild, Option.isSome_iff_ne_none, ne_eq, child?_eq_none, not_not, List.mem_map]

/-- A node keeps an edge that it must have. -/
theorem hasChild_mutate (hm : Fitting S K m) (hhas : ∀ x, S x → h.has x) (hr : r ∈ parts (K x))
    (hx : h.hasChild x r) : (h.mutate m).hasChild x r := by
  obtain ⟨e, he, rfl⟩ := hasChild_iff.1 hx
  have hitem := not_isItem_of_mem_parts hr
  refine hasChild_iff.2 ?_
  cases m with
  | setChild s q d =>
    rw [mutate, outgoing_setChild_eraseP (hhas s hm.1)]
    split
    · by_cases hq : e.role = q
      · exact ⟨⟨q, d⟩, by simp, hq.symm⟩
      · refine ⟨e, List.mem_append_left _ ?_, rfl⟩
        exact (List.mem_eraseP_of_neg (by simpa using hq)).2 he
    · exact ⟨e, he, rfl⟩
  | pushItem s d =>
    rw [mutate, pushItem, outgoing_link (hhas s hm.1)]
    split
    · exact ⟨e, List.mem_append_left _ he, rfl⟩
    · exact ⟨e, he, rfl⟩
  | clearItems s =>
    rw [mutate, clearItems, outgoing_removeWhere]
    split
    · exact ⟨e, List.mem_filter.2 ⟨he, by simpa using hitem⟩, rfl⟩
    · exact ⟨e, he, rfl⟩
  | detach s =>
    rw [mutate, detach, outgoing_removeWhere]
    split
    · next hxs =>
      rw [hxs, hm.2] at hr
      cases hr
    · exact ⟨e, he, rfl⟩
  | replace old new =>
    by_cases hne : old = new
    · rw [mutate, replace, if_pos hne]
      exact ⟨e, he, rfl⟩
    · rw [mutate, outgoing_replace hne]
      exact ⟨_, List.mem_map_of_mem he, role_turn x _ e⟩
  | setKind n k =>
    rw [mutate, outgoing_setKind]
    exact ⟨e, he, rfl⟩
  | add | setPayload | removeChild => exact hm.elim

/-! ## Mutations in a row -/

theorem has_foldl : ∀ {ms : List Mutation} {h : Graph}, (∀ m ∈ ms, Fitting S K m) →
    (ms.foldl Graph.mutate h).has x = h.has x
  | [], _, _ => rfl
  | m :: ms, h, hms => by
    obtain ⟨hm, hms⟩ := List.forall_mem_cons.1 hms
    rw [List.foldl_cons, has_foldl hms, has_mutate hm]

theorem payload_foldl : ∀ {ms : List Mutation} {h : Graph}, (∀ m ∈ ms, Fitting S K m) →
    (ms.foldl Graph.mutate h).payload x = h.payload x
  | [], _, _ => rfl
  | m :: ms, h, hms => by
    obtain ⟨hm, hms⟩ := List.forall_mem_cons.1 hms
    rw [List.foldl_cons, payload_foldl hms, payload_mutate hm]

/-- A node has its kind in the end if it had it from the start, or gets it on the way. -/
theorem kind_foldl (hx : S x) : ∀ {ms : List Mutation} {h : Graph}, (∀ m ∈ ms, Fitting S K m) →
    (∀ x, S x → h.has x) → (h.kind x = K x ∨ .setKind x (K x) ∈ ms) →
      (ms.foldl Graph.mutate h).kind x = K x
  | [], _, _, _, hkind => hkind.resolve_right List.not_mem_nil
  | m :: ms, h, hms, hhas, hkind => by
    obtain ⟨hm, hms⟩ := List.forall_mem_cons.1 hms
    rw [List.foldl_cons]
    refine kind_foldl hx hms (fun y hy => (has_mutate hm).trans (hhas y hy)) ?_
    rcases hkind with hkind | hkind
    · exact Or.inl (kind_mutate hm hkind)
    · rcases List.mem_cons.1 hkind with rfl | hkind
      · refine Or.inl ?_
        rw [mutate, kind_setKind, if_pos ⟨rfl, hhas x hx⟩]
      · exact Or.inr hkind

/-- A node has an edge that it must have if it had it from the start, or gets it on the way. -/
theorem hasChild_foldl (hx : S x) (hr : r ∈ parts (K x)) : ∀ {ms : List Mutation} {h : Graph},
    (∀ m ∈ ms, Fitting S K m) → (∀ x, S x → h.has x) →
      (h.hasChild x r ∨ ∃ d, .setChild x r d ∈ ms) → (ms.foldl Graph.mutate h).hasChild x r
  | [], _, _, _, hchild => hchild.resolve_right fun ⟨_, hd⟩ => List.not_mem_nil hd
  | m :: ms, h, hms, hhas, hchild => by
    obtain ⟨hm, hms⟩ := List.forall_mem_cons.1 hms
    rw [List.foldl_cons]
    refine hasChild_foldl hx hr hms (fun y hy => (has_mutate hm).trans (hhas y hy)) ?_
    rcases hchild with hchild | ⟨d, hd⟩
    · exact Or.inl (hasChild_mutate hm hhas hr hchild)
    · rcases List.mem_cons.1 hd with rfl | hd
      · refine Or.inl (hasChild_iff.2 ⟨⟨r, d⟩, ?_, rfl⟩)
        rw [mutate, outgoing_setChild_eraseP (hhas x hx), if_pos rfl]
        simp
      · exact Or.inr ⟨d, hd⟩

/-- Mutations that fit keep a graph wired. -/
theorem Wired.foldl : ∀ {ms : List Mutation} {f : NodeId → Nat} {h : Graph}, Wired S K f h →
    (∀ m ∈ ms, Fitting S K m) → Mutation.Roomy f ms → ∃ f', Wired S K f' (ms.foldl Graph.mutate h)
  | [], f, _, hw, _, _ => ⟨f, hw⟩
  | _ :: _, _, _, hw, hms, hroom => by
    obtain ⟨hm, hms⟩ := List.forall_mem_cons.1 hms
    exact (hw.mutate hm hroom.1).foldl hms hroom.2

end Lowering

end TypeFlow
