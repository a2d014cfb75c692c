import TypeFlow.Proofs.Graph.Children
import TypeFlow.Proofs.Graph.Drafting
import TypeFlow.Proofs.Graph.Limbs
/-!
# Lists that are put in anew

A list is exchanged by dropping it and pushing other items one after the other (`Graph.withItems`).
What is pushed goes to the next index, and no index in use lies behind that (`Ascends`), so the
items are read in the order in which they were pushed, however many there are
(`relists_withItems`). Their roles differ as long as there are indices left (`wellKept_withItems`).
-/

namespace TypeFlow

theorem Role.exists_of_isItem {r : Role} (h : r.isItem) : ∃ i, r = .item i := by
  cases r with
  | item i => exact ⟨i, rfl⟩
  | _ => cases h

namespace Edge

variable {e f : Edge} {es : List Edge}

theorem insertByRole_concat (hle : e.role.position ≤ f.role.position) : ∀ es : List Edge,
    e.insertByRole (es ++ [f]) = e.insertByRole es ++ [f]
  | [] => by simp [insertByRole, hle]
  | a :: as => by
    rw [List.cons_append, insertByRole, insertByRole]
    split
    · rfl
    · rw [insertByRole_concat hle as]
      rfl

/-- An edge that no other one comes behind stays last. -/
theorem byRole_concat : ∀ {es : List Edge}, (∀ e ∈ es, e.role.position ≤ f.role.position) →
    byRole (es ++ [f]) = byRole es ++ [f]
  | [], _ => rfl
  | e :: es, h => by
    obtain ⟨he, hes⟩ := List.forall_mem_cons.1 h
    change e.insertByRole (byRole (es ++ [f])) = e.insertByRole (byRole es) ++ [f]
    rw [byRole_concat hes, insertByRole_concat he]

end Edge

namespace Graph

/-- The graph with another list of items below a node. -/
def withItems (g : Graph) (n : NodeId) (items : List NodeId) : Graph :=
  items.foldl (·.pushItem n ·) (g.clearItems n)

variable {g h : Graph} {s d m : NodeId} {xs : List NodeId}

/-! ## Pushing -/

/-- No index in use lies behind the next one. -/
def Ascends (g : Graph) (s : NodeId) : Prop :=
  ∀ e ∈ g.outgoing s, ∀ i, e.role = .item i → i ≤ g.nextIndex s

theorem outgoing_pushItem (hs : g.has s) : (g.pushItem s d).outgoing m =
    if m = s then g.outgoing m ++ [⟨.item (g.nextIndex s), d⟩] else g.outgoing m :=
  outgoing_link hs

/-- The next index grows, or stays where it is if there is none behind it. -/
theorem nextIndex_le_pushItem (hs : g.has s) : g.nextIndex s ≤ (g.pushItem s d).nextIndex s := by
  have hnext : (g.pushItem s d).nextIndex s =
      if g.nextIndex s ≤ g.nextIndex s + 1 then g.nextIndex s + 1 else g.nextIndex s := by
    rw [nextIndex, outgoing_pushItem hs, if_pos rfl, List.filterMap_append, List.foldl_append]
    rfl
  rw [hnext]
  split
  · assumption
  · exact UInt32.le_refl _

theorem Ascends.pushItem (ha : g.Ascends s) (hs : g.has s) : (g.pushItem s d).Ascends s := by
  intro e he i hi
  rw [outgoing_pushItem hs, if_pos rfl] at he
  refine UInt32.le_trans ?_ (nextIndex_le_pushItem hs)
  rcases List.mem_append.1 he with he | he
  · exact ha e he i hi
  · obtain rfl := List.mem_singleton.1 he
    obtain rfl := Role.item.inj hi
    exact UInt32.le_refl _

theorem items_pushItem (ha : g.Ascends s) (hs : g.has s) :
    (g.pushItem s d).items s = g.items s ++ [d] := by
  have hlast : ([⟨.item (g.nextIndex s), d⟩] : List Edge).filter (·.role.isItem) =
      [⟨.item (g.nextIndex s), d⟩] := rfl
  rw [items, itemEdges, outgoing_pushItem hs, if_pos rfl, List.filter_append, hlast,
    Edge.byRole_concat, List.map_append]
  · rfl
  · intro e he
    obtain ⟨he, hitem⟩ := List.mem_filter.1 he
    obtain ⟨i, hi⟩ := Role.exists_of_isItem hitem
    have hle := UInt32.le_iff_toNat_le.1 (ha e he i hi)
    rw [hi, Role.position, Role.position]
    omega

/-- A second graph has another list of items below a node, and is otherwise the same. -/
structure Relists (g : Graph) (s : NodeId) (xs : List NodeId) (h : Graph) : Prop where
  nodes : SameNodes g h
  items : h.items s = xs
  others : (h.outgoing s).filter (fun e => !e.role.isItem) =
    (g.outgoing s).filter fun e => !e.role.isItem
  elsewhere : ∀ m, m ≠ s → h.outgoing m = g.outgoing m

theorem Relists.trans {ys : List NodeId} {k : Graph} (hgh : Relists g s xs h)
    (hhk : Relists h s ys k) : Relists g s ys k where
  nodes := hgh.nodes.trans hhk.nodes
  items := hhk.items
  others := hhk.others.trans hgh.others
  elsewhere m hm := (hhk.elsewhere m hm).trans (hgh.elsewhere m hm)

theorem relists_pushItem (ha : g.Ascends s) (hs : g.has s) :
    Relists g s (g.items s ++ [d]) (g.pushItem s d) where
  nodes := sameNodes_link _ _ _
  items := items_pushItem ha hs
  others := by
    rw [outgoing_pushItem hs, if_pos rfl, List.filter_append]
    exact List.append_nil _
  elsewhere m hm := by rw [outgoing_pushItem hs, if_neg hm]

theorem relists_pushAll : ∀ (xs : List NodeId) {g : Graph}, g.Ascends s → g.has s →
    Relists g s (g.items s ++ xs) (xs.foldl (·.pushItem s ·) g)
  | [], g, _, _ => ⟨.refl g, (List.append_nil _).symm, rfl, fun _ _ => rfl⟩
  | x :: xs, g, ha, hs => by
    have hpush := relists_pushItem (d := x) ha hs
    have hmore := relists_pushAll xs (ha.pushItem hs) ((has_congr hpush.nodes.size).trans hs)
    rw [hpush.items, List.append_assoc] at hmore
    exact hpush.trans hmore

/-! ## Exchanging a list -/

theorem outgoing_clearItems : (g.clearItems s).outgoing m =
    if m = s then (g.outgoing m).filter (fun e => !e.role.isItem) else g.outgoing m :=
  outgoing_removeWhere _ m

theorem ne_item_of_clearItems {e : Edge} (he : e ∈ (g.clearItems s).outgoing s) {i : UInt32} :
    e.role ≠ .item i := by
  intro hi
  rw [outgoing_clearItems, if_pos rfl] at he
  have hnone := (List.mem_filter.1 he).2
  rw [hi] at hnone
  cases hnone

theorem ascends_clearItems : (g.clearItems s).Ascends s :=
  fun _ he _ hi => absurd hi (ne_item_of_clearItems he)

theorem relists_clearItems : Relists g s [] (g.clearItems s) where
  nodes := sameNodes_removeWhere s _
  items := by
    refine List.eq_nil_iff_forall_not_mem.2 fun m hm => ?_
    obtain ⟨r, hr, he⟩ := mem_items.1 hm
    obtain ⟨i, rfl⟩ := Role.exists_of_isItem hr
    exact ne_item_of_clearItems he rfl
  others := by
    rw [outgoing_clearItems, if_pos rfl, List.filter_filter]
    simp
  elsewhere m hm := by rw [outgoing_clearItems, if_neg hm]

/-- A list that is put in anew is that list, and nothing else changes. -/
theorem relists_withItems (hs : g.has s) (xs : List NodeId) :
    Relists g s xs (g.withItems s xs) := by
  have hclear := relists_clearItems (g := g) (s := s)
  have hpush := relists_pushAll xs ascends_clearItems ((has_congr hclear.nodes.size).trans hs)
  rw [hclear.items, List.nil_append] at hpush
  exact hclear.trans hpush

/-! ## Room for the indices -/

/-- The indices in use below a node lie below `c`. -/
def FilledTo (g : Graph) (s : NodeId) (c : Nat) : Prop :=
  ∀ e ∈ g.outgoing s, ∀ i, e.role = .item i → i.toNat < c

variable {c : Nat}

theorem FilledTo.congr (hf : g.FilledTo s c) (hout : h.outgoing s = g.outgoing s) :
    h.FilledTo s c := by
  unfold FilledTo
  rwa [hout]

theorem FilledTo.ne_last (hf : g.FilledTo s c) (hc : c < 2 ^ 32) :
    ∀ e ∈ g.outgoing s, e.role ≠ .item 0xFFFFFFFF := by
  intro e he hr
  have hlt := hf e he _ hr
  have hvalue : (0xFFFFFFFF : UInt32).toNat = 2 ^ 32 - 1 := rfl
  omega

theorem FilledTo.ascends (hf : g.FilledTo s c) (hc : c < 2 ^ 32) : g.Ascends s :=
  fun e he i hi => UInt32.le_of_lt (lt_nextIndex (hf.ne_last hc) e he i hi)

/-- The next place comes right behind those in use. -/
theorem FilledTo.toNat_nextIndex_le (hf : g.FilledTo s c) (hc : c < 2 ^ 32) :
    (g.nextIndex s).toNat ≤ c := by
  have hfold : ∀ (is : List UInt32) (top : UInt32), (∀ i ∈ is, i.toNat < c) → top.toNat ≤ c →
      (is.foldl (fun top i => max top (i + 1)) top).toNat ≤ c := by
    intro is
    induction is with
    | nil => exact fun top _ htop => htop
    | cons i is ih =>
      intro top his htop
      obtain ⟨hi, his⟩ := List.forall_mem_cons.1 his
      refine ih _ his ?_
      dsimp only
      have hmax : max top (i + 1) = if top ≤ i + 1 then i + 1 else top := rfl
      have hnext : (i + 1).toNat = i.toNat + 1 := by
        refine toNat_succ fun hlast => ?_
        have hlast : i.toNat = 2 ^ 32 - 1 := congrArg UInt32.toNat hlast
        omega
      rw [hmax]
      split
      · omega
      · exact htop
  refine hfold _ 0 (fun i hi => ?_) (Nat.zero_le c)
  obtain ⟨e, he, hr⟩ := mem_indices.1 hi
  exact hf e he i hr

theorem FilledTo.pushItem (hf : g.FilledTo s c) (hs : g.has s) (hc : c < 2 ^ 32) :
    (g.pushItem s d).FilledTo s (c + 1) := by
  intro e he i hi
  rw [outgoing_pushItem hs, if_pos rfl] at he
  rcases List.mem_append.1 he with he | he
  · exact Nat.lt_succ_of_lt (hf e he i hi)
  · obtain rfl := List.mem_singleton.1 he
    obtain rfl := Role.item.inj hi
    exact Nat.lt_succ_of_le (hf.toNat_nextIndex_le hc)

/-- Items that there are indices for can all be pushed. -/
theorem FilledTo.pushAll : ∀ (xs : List NodeId) {g : Graph} {c : Nat}, g.FilledTo s c →
    g.has s → c + xs.length ≤ 2 ^ 32 →
    (xs.foldl (·.pushItem s ·) g).FilledTo s (c + xs.length) ∧
      (g.WellKept → (∀ x ∈ xs, g.has x) → (xs.foldl (·.pushItem s ·) g).WellKept)
  | [], _, _, hf, _, _ => ⟨hf, fun hg _ => hg⟩
  | x :: xs, g, c, hf, hs, hlength => by
    rw [List.length_cons] at hlength
    have hhas : ∀ y, (g.pushItem s x).has y = g.has y := fun _ => has_link
    have hc : c < 2 ^ 32 := by omega
    obtain ⟨hmore, hkept⟩ := FilledTo.pushAll xs (hf.pushItem (d := x) hs hc) ((hhas s).trans hs)
      (by omega)
    refine ⟨?_, fun hg hxs => ?_⟩
    · rwa [Nat.add_assoc, Nat.add_comm 1] at hmore
    · obtain ⟨hx, hxs⟩ := List.forall_mem_cons.1 hxs
      exact hkept (wellKept_pushItem hg hs hx (hf.ne_last hc))
        fun y hy => (hhas y).trans (hxs y hy)

theorem filledTo_clearItems : (g.clearItems s).FilledTo s 0 :=
  fun _ he _ hi => absurd hi (ne_item_of_clearItems he)

theorem filledTo_withItems (hs : g.has s) (hlength : xs.length ≤ 2 ^ 32) :
    (g.withItems s xs).FilledTo s xs.length := by
  have hhas : (g.clearItems s).has s := (has_congr (sameNodes_removeWhere s _).size).trans hs
  have hfilled := (filledTo_clearItems.pushAll xs hhas (by omega)).1
  rwa [Nat.zero_add] at hfilled

theorem wellKept_withItems (hg : g.WellKept) (hs : g.has s) (hxs : ∀ x ∈ xs, g.has x)
    (hlength : xs.length ≤ 2 ^ 32) : (g.withItems s xs).WellKept := by
  have hhas : ∀ y, (g.clearItems s).has y = g.has y :=
    fun _ => has_congr (sameNodes_removeWhere s _).size
  exact (filledTo_clearItems.pushAll xs ((hhas s).trans hs) (by omega)).2
    (wellKept_removeWhere hg _) fun x hx => (hhas x).trans (hxs x hx)

/-- There are no more items than indices. -/
theorem length_items_le (hg : g.WellKept) (n : NodeId) : (g.items n).length ≤ 2 ^ 32 := by
  have hindices : ((g.outgoing n).filterMap (·.role.index?)).Nodup := by
    have hroles := (hg.unique n).filterMap (f := Role.index?) fun r r' i hi hi' => by
      cases r <;> cases r' <;> simp_all [Role.index?]
    rwa [List.filterMap_map] at hroles
  have hlength : (g.items n).length = ((g.outgoing n).filterMap (·.role.index?)).length := by
    have hindex : ∀ e : Edge, (e.role.index?).isSome = e.role.isItem := by
      intro e
      cases e.role <;> rfl
    rw [items, itemEdges, List.length_map, (Edge.perm_byRole _).length_eq,
      List.length_filterMap_eq_countP, ← List.countP_eq_length_filter]
    exact List.countP_congr fun e _ => by rw [hindex]
  have hsubset : (((g.outgoing n).filterMap (·.role.index?)).map UInt32.toNat).toFinset ⊆
      Finset.range (2 ^ 32) := by
    intro i hi
    obtain ⟨j, -, rfl⟩ := List.mem_map.1 (List.mem_toFinset.1 hi)
    exact Finset.mem_range.2 j.toNat_lt
  have hcard := Finset.card_le_card hsubset
  rw [List.toFinset_card_of_nodup (hindices.map fun i j => UInt32.toNat_inj.1),
    List.length_map, Finset.card_range] at hcard
  rwa [hlength]

end Graph

/-! ## Drafting -/

namespace Draft

open TypeFlow.Graph

variable {g h : Graph} {s : NodeId} {xs : List NodeId}

theorem yields_pushEach : ∀ {xs : List NodeId} {h : Graph}, h.has s → (∀ x ∈ xs, h.has x) →
    Yields g (xs.forM fun x => pushItem s x) h fun _ h' => h' = xs.foldl (·.pushItem s ·) h
  | [], _, _, _ => yields_pure rfl
  | x :: xs, h, hs, hxs => by
    obtain ⟨hx, hxs⟩ := List.forall_mem_cons.1 hxs
    have hhas : ∀ y, (h.pushItem s x).has y = h.has y := fun _ => has_link
    refine (yields_edit (by simp [Edit.at, Mutation.names, hs, hx]) ?_).bind
    exact yields_pushEach ((hhas s).trans hs) fun y hy => (hhas y).trans (hxs y hy)

/-- Dropping a list and pushing another one exchanges it. -/
theorem yields_refill (hs : h.has s) (hxs : ∀ x ∈ xs, h.has x) :
    Yields g (do
      clearItems s
      xs.forM fun x => pushItem s x) h fun _ h' => h' = h.withItems s xs := by
  have hhas : ∀ y, (h.clearItems s).has y = h.has y :=
    fun _ => has_congr (sameNodes_removeWhere s _).size
  refine (yields_edit (by simpa [Edit.at, Mutation.names] using hs) ?_).bind
  exact yields_pushEach ((hhas s).trans hs) fun x hx => (hhas x).trans (hxs x hx)

end Draft

end TypeFlow
