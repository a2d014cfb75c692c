import TypeFlow.Proofs.Graph.Grows
import TypeFlow.Proofs.Graph.Hang
import TypeFlow.Proofs.Lowering.Keywords
import TypeFlow.Proofs.Lowering.Nested
/-!
# What collecting keyword arguments makes of a call

The keyword arguments of a call, in whatever order they stand among the others, become the entries
of a new map literal behind the other arguments. Each entry takes two new nodes, one for itself and
one for its key, so that the nodes are numbered by the places of the arguments (`Enters`). An entry
gets the very node that its argument had as its value, and the argument is left without edges
(`Collects`).
-/

namespace TypeFlow

namespace Lowering

open TypeFlow.Graph

variable {g h h' : Graph} {n m s x map entry : NodeId} {r : Role} {k : Keyword} {ks : List Keyword}
  {positional : List NodeId} {c : Nat}

/-! ## One entry -/

/-- The node that is added behind a node. -/
def keyOf (entry : NodeId) : NodeId := ⟨entry.index + 1⟩

theorem index_keyOf : (keyOf entry).index = entry.index + 1 := rfl

theorem index_fresh : g.fresh.index = g.size := rfl

/-- The entry of a keyword argument in a map: its key is a new text, the name of the argument, and
its value is the node that the argument had. -/
structure IsEntry (h : Graph) (entry : NodeId) (k : Keyword) : Prop where
  kind : h.kind entry = .expr .mapEntry
  payload : h.payload entry = .none
  outgoing : h.outgoing entry = [⟨.key, keyOf entry⟩, ⟨.value, k.value⟩]
  keyKind : h.kind (keyOf entry) = .expr .strLit
  keyPayload : h.payload (keyOf entry) = .str k.name
  keyOutgoing : h.outgoing (keyOf entry) = []

/-- The graph with the nodes of an entry. -/
def withEntryNodes (g : Graph) (k : Keyword) : Graph :=
  (g.add (.expr .mapEntry) .none).add (.expr .strLit) (.str k.name)

/-- The graph with an entry that hangs nowhere yet. -/
def withEntry (g : Graph) (k : Keyword) : Graph :=
  ((withEntryNodes g k).setChild g.fresh .key (keyOf g.fresh)).setChild g.fresh .value k.value

/-- The graph with an entry for a keyword argument in a map, and the argument emptied. -/
def entered (g : Graph) (map : NodeId) (k : Keyword) : Graph :=
  ((withEntry g k).pushItem map g.fresh).detach k.node

theorem sameNodes_withEntry : SameNodes (withEntryNodes g k) (withEntry g k) := by
  unfold withEntry
  exact (sameNodes_setChild _ _ _).trans (sameNodes_setChild _ _ _)

theorem sameNodes_entered : SameNodes (withEntryNodes g k) (entered g map k) := by
  unfold entered pushItem detach
  exact sameNodes_withEntry.trans ((sameNodes_link _ _ _).trans (sameNodes_removeWhere _ _))

theorem size_withEntryNodes : (withEntryNodes g k).size = g.size + 2 := by
  rw [withEntryNodes, size_add, size_add]

theorem size_entered : (entered g map k).size = g.size + 2 :=
  sameNodes_entered.size.trans size_withEntryNodes

theorem has_withEntryNodes (hm : m.index < g.size + 2) : (withEntryNodes g k).has m := by
  rw [has, size_withEntryNodes]
  exact decide_eq_true hm

theorem has_withEntryNodes_of_has (hm : g.has m) : (withEntryNodes g k).has m := by
  have hlt : m.index < g.size := of_decide_eq_true hm
  exact has_withEntryNodes (by omega)

theorem has_entry : (withEntryNodes g k).has g.fresh :=
  has_withEntryNodes (by rw [index_fresh]; omega)

theorem has_key : (withEntryNodes g k).has (keyOf g.fresh) :=
  has_withEntryNodes (by rw [index_keyOf, index_fresh]; omega)

theorem has_withEntry : (withEntry g k).has m = (withEntryNodes g k).has m :=
  has_congr sameNodes_withEntry.size

theorem has_entered (hm : g.has m) : (entered g map k).has m := by
  have hlt : m.index < g.size := of_decide_eq_true hm
  rw [has, size_entered]
  exact decide_eq_true (by omega)

theorem ne_keyOf_fresh (hm : g.has m) : m ≠ keyOf g.fresh := by
  rintro rfl
  have hlt : g.size + 1 < g.size := of_decide_eq_true hm
  omega

theorem fresh_add : (g.add (.expr .mapEntry) .none).fresh = keyOf g.fresh := by
  rw [fresh, size_add]
  rfl

theorem kind_withEntryNodes : (withEntryNodes g k).kind m =
    if m = keyOf g.fresh then .expr .strLit
    else if m = g.fresh then .expr .mapEntry else g.kind m := by
  rw [withEntryNodes, kind_add, kind_add, fresh_add]

theorem payload_withEntryNodes : (withEntryNodes g k).payload m =
    if m = keyOf g.fresh then .str k.name
    else if m = g.fresh then .none else g.payload m := by
  rw [withEntryNodes, payload_add, payload_add, fresh_add]

theorem outgoing_withEntry : (withEntry g k).outgoing m =
    if m = g.fresh then [⟨.key, keyOf g.fresh⟩, ⟨.value, k.value⟩] else g.outgoing m := by
  have hnone : (withEntryNodes g k).outgoing g.fresh = [] := by
    rw [withEntryNodes, outgoing_add, outgoing_add, outgoing_of_not_has has_fresh]
  rw [withEntry, outgoing_setChild_eraseP (by simpa using has_entry),
    outgoing_setChild_eraseP has_entry]
  split
  · next hm =>
    subst hm
    rw [hnone]
    rfl
  · rw [withEntryNodes, outgoing_add, outgoing_add]

theorem outgoing_entered (hmap : g.has map) : (entered g map k).outgoing m =
    if m = k.node then []
    else if m = map then g.outgoing m ++ [⟨.item (g.nextIndex map), g.fresh⟩]
    else if m = g.fresh then [⟨.key, keyOf g.fresh⟩, ⟨.value, k.value⟩] else g.outgoing m := by
  have hhas : (withEntry g k).has map := has_withEntry.trans (has_withEntryNodes_of_has hmap)
  have hsame : (withEntry g k).outgoing map = g.outgoing map := by
    rw [outgoing_withEntry, if_neg (ne_fresh hmap)]
  have hnext : (withEntry g k).nextIndex map = g.nextIndex map := by
    rw [nextIndex, hsame, nextIndex]
  have hdetach : (entered g map k).outgoing m =
      if m = k.node then [] else ((withEntry g k).pushItem map g.fresh).outgoing m := by
    rw [entered, detach, outgoing_removeWhere]
    simp
  rw [hdetach, outgoing_pushItem hhas, hnext]
  split
  · rfl
  · split
    · next hm => rw [hm, hsame]
    · exact outgoing_withEntry

theorem wellKept_entered (hg : g.WellKept) (hmap : g.has map) (hvalue : g.has k.value)
    (hroom : ∀ e ∈ g.outgoing map, e.role ≠ .item 0xFFFFFFFF) : (entered g map k).WellKept := by
  have hentry : (withEntry g k).WellKept := by
    refine wellKept_setChild (wellKept_setChild ?_ has_entry has_key _) ?_ ?_ _
    · exact wellKept_add (wellKept_add hg _ _) _ _
    · simpa using has_entry
    · simpa using has_withEntryNodes_of_has hvalue
  unfold entered detach
  refine wellKept_removeWhere (wellKept_pushItem hentry
    (has_withEntry.trans (has_withEntryNodes_of_has hmap)) (has_withEntry.trans has_entry)
      fun e he => ?_) _
  rw [outgoing_withEntry, if_neg (ne_fresh hmap)] at he
  exact hroom e he

theorem isEntry_entered (hmap : g.has map) (hk : g.has k.node) :
    IsEntry (entered g map k) g.fresh k := by
  have hkey : keyOf g.fresh ≠ g.fresh := fun h => by
    have hindex := congrArg NodeId.index h
    exact absurd hindex (Nat.succ_ne_self _)
  have hnode : ∀ x : NodeId, g.size ≤ x.index → x ≠ k.node ∧ x ≠ map := by
    intro x hx
    have hk : k.node.index < g.size := of_decide_eq_true hk
    have hmap : map.index < g.size := of_decide_eq_true hmap
    refine ⟨?_, ?_⟩
    · rintro rfl
      omega
    · rintro rfl
      omega
  obtain ⟨hfk, hfm⟩ := hnode g.fresh (Nat.le_refl _)
  obtain ⟨hkk, hkm⟩ := hnode (keyOf g.fresh) (Nat.le_succ _)
  refine ⟨?_, ?_, ?_, ?_, ?_, ?_⟩
  · rw [sameNodes_entered.kind, kind_withEntryNodes, if_neg hkey.symm, if_pos rfl]
  · rw [sameNodes_entered.payload, payload_withEntryNodes, if_neg hkey.symm, if_pos rfl]
  · rw [outgoing_entered hmap, if_neg hfk, if_neg hfm, if_pos rfl]
  · rw [sameNodes_entered.kind, kind_withEntryNodes, if_pos rfl]
  · rw [sameNodes_entered.payload, payload_withEntryNodes, if_pos rfl]
  · rw [outgoing_entered hmap, if_neg hkk, if_neg hkm, if_neg hkey]
    exact outgoing_of_not_has (decide_eq_false (by simp [keyOf, fresh]))

theorem yields_entered {map : Handle} (hmap : h.has (map.at g)) (hk : h.has k.node)
    (hvalue : h.has k.value) : Draft.Yields g (addEntry map k) h fun _ h' =>
      h' = entered h (map.at g) k := by
  unfold addEntry
  refine (Draft.yields_node fun entry hentry => ?_).bind
  refine (Draft.yields_node fun key hkey => ?_).bind
  rw [fresh_add] at hkey
  have hvalue' : (Handle.old k.value).at g = k.value := rfl
  have hnode : (Handle.old k.node).at g = k.node := rfl
  refine (Draft.yields_edit (h := withEntryNodes h k) ?_ ?_).bind
  · simp [Edit.at, Mutation.names, hentry, hkey, has_entry, has_key]
  simp only [Edit.at, mutate, hentry, hkey]
  refine (Draft.yields_edit ?_ ?_).bind
  · simp [Edit.at, Mutation.names, hvalue', hentry, has_entry, has_withEntryNodes_of_has hvalue]
  simp only [Edit.at, mutate, hentry]
  refine (Draft.yields_edit (h := withEntry h k) ?_ ?_).bind
  · simp [Edit.at, Mutation.names, hentry, has_withEntry, has_entry,
      has_withEntryNodes_of_has hmap]
  simp only [Edit.at, mutate, hentry]
  refine Draft.yields_edit ?_ rfl
  simp [Edit.at, Mutation.names, hnode, Graph.pushItem, has_withEntry, has_withEntryNodes_of_has hk]

/-! ## All entries -/

/-- The number of an entry among the nodes that are added behind a graph. -/
def entryAt (g : Graph) (j : Nat) : NodeId := ⟨g.size + 2 * j⟩

theorem entryAt_entered (j : Nat) : entryAt (entered g map k) j = entryAt g (j + 1) := by
  rw [entryAt, entryAt, size_entered]
  congr 1
  omega

/-- Entries for keyword arguments have been added to a map, behind its items and in the order of
the arguments, and the arguments have been emptied. -/
structure Enters (g : Graph) (map : NodeId) (ks : List Keyword) (h : Graph) : Prop where
  size : h.size = g.size + 2 * ks.length
  kind : ∀ m, g.has m → h.kind m = g.kind m
  payload : ∀ m, g.has m → h.payload m = g.payload m
  items : h.items map = g.items map ++ (List.range ks.length).map (entryAt g)
  others : (h.outgoing map).filter (fun e => !e.role.isItem) =
    (g.outgoing map).filter fun e => !e.role.isItem
  entry : ∀ j k, ks[j]? = some k → IsEntry h (entryAt g j) k
  bare : ∀ k ∈ ks, h.outgoing k.node = []
  outgoing : ∀ m, g.has m → m ≠ map → m ∉ ks.map Keyword.node → h.outgoing m = g.outgoing m
  kept : h.WellKept

theorem Enters.nil (hg : g.WellKept) : Enters g map [] g :=
  ⟨rfl, fun _ _ => rfl, fun _ _ => rfl, (List.append_nil _).symm, rfl, nofun, nofun,
    fun _ _ _ _ => rfl, hg⟩

/-- What the other entries leave of the nodes of an entry. -/
theorem IsEntry.of_same (he : IsEntry g entry k) (hentry : h.kind entry = g.kind entry ∧
    h.payload entry = g.payload entry ∧ h.outgoing entry = g.outgoing entry)
    (hkey : h.kind (keyOf entry) = g.kind (keyOf entry) ∧
      h.payload (keyOf entry) = g.payload (keyOf entry) ∧
      h.outgoing (keyOf entry) = g.outgoing (keyOf entry)) : IsEntry h entry k :=
  ⟨hentry.1.trans he.kind, hentry.2.1.trans he.payload, hentry.2.2.trans he.outgoing,
    hkey.1.trans he.keyKind, hkey.2.1.trans he.keyPayload, hkey.2.2.trans he.keyOutgoing⟩

theorem Enters.cons (hmap : g.has map) (hfill : g.FilledTo map c) (hc : c < 2 ^ 32)
    (hks : ∀ k' ∈ k :: ks, g.has k'.node) (hapart : map ∉ (k :: ks).map Keyword.node)
    (hnodup : ((k :: ks).map Keyword.node).Nodup) (hnext : Enters (entered g map k) map ks h) :
    Enters g map (k :: ks) h := by
  rw [List.map_cons, List.nodup_cons] at hnodup
  obtain ⟨hmk, hmks⟩ := List.ne_and_not_mem_of_not_mem_cons (List.map_cons ▸ hapart)
  have hold : ∀ m, g.has m → (entered g map k).kind m = g.kind m ∧
      (entered g map k).payload m = g.payload m := by
    intro m hm
    rw [sameNodes_entered.kind, sameNodes_entered.payload, kind_withEntryNodes,
      payload_withEntryNodes, if_neg (ne_keyOf_fresh hm), if_neg (ne_fresh hm),
      if_neg (ne_keyOf_fresh hm), if_neg (ne_fresh hm)]
    exact ⟨rfl, rfl⟩
  have hpush : (entered g map k).outgoing map = (g.pushItem map g.fresh).outgoing map := by
    rw [outgoing_entered hmap, if_neg hmk, if_pos rfl, outgoing_pushItem hmap, if_pos rfl]
  have hrelists := relists_pushItem (d := g.fresh) (hfill.ascends hc) hmap
  -- the nodes of the first entry are out of the way of the others
  have hfirst : ∀ x, (entered g map k).has x → g.has x = false →
      h.kind x = (entered g map k).kind x ∧ h.payload x = (entered g map k).payload x ∧
        h.outgoing x = (entered g map k).outgoing x := by
    intro x hx hnew
    refine ⟨hnext.kind x hx, hnext.payload x hx, hnext.outgoing x hx ?_ fun hmem => ?_⟩
    · rintro rfl
      cases hmap.symm.trans hnew
    · obtain ⟨k', hk', rfl⟩ := List.mem_map.1 hmem
      cases (hks k' (List.mem_cons_of_mem k hk')).symm.trans hnew
  refine ⟨?_, fun m hm => ?_, fun m hm => ?_, ?_, ?_, fun j k' hj => ?_, ?_,
    fun m hm hne hmem => ?_, hnext.kept⟩
  · rw [hnext.size, size_entered, List.length_cons]
    omega
  · exact (hnext.kind m (has_entered hm)).trans (hold m hm).1
  · exact (hnext.payload m (has_entered hm)).trans (hold m hm).2
  · have hshift : entryAt (entered g map k) = entryAt g ∘ Nat.succ :=
      funext fun j => entryAt_entered j
    rw [hnext.items, items_congr hpush, hrelists.items, List.length_cons, List.range_succ_eq_map,
      List.map_cons, List.map_map, hshift, List.append_assoc]
    rfl
  · rw [hnext.others, hpush, hrelists.others]
  · cases j with
    | zero =>
      obtain rfl : k = k' := Option.some.inj hj
      refine (isEntry_entered hmap (hks k List.mem_cons_self)).of_same ?_ ?_
      · exact hfirst g.fresh (decide_eq_true (by rw [size_entered, fresh]; simp)) has_fresh
      · exact hfirst (keyOf g.fresh) (decide_eq_true (by rw [size_entered, keyOf, fresh]; simp))
          (decide_eq_false (by simp [keyOf, fresh]))
    | succ j =>
      rw [← entryAt_entered]
      exact hnext.entry j k' hj
  · refine List.forall_mem_cons.2 ⟨?_, hnext.bare⟩
    rw [hnext.outgoing k.node (has_entered (hks k List.mem_cons_self)) (Ne.symm hmk) hnodup.1,
      outgoing_entered hmap, if_pos rfl]
  · rw [List.map_cons, List.mem_cons, not_or] at hmem
    rw [hnext.outgoing m (has_entered hm) hne hmem.2, outgoing_entered hmap, if_neg hmem.1,
      if_neg hne, if_neg (ne_fresh hm)]

theorem yields_enters {map : Handle} (hh : h.WellKept) (hmap : h.has (map.at g))
    (hfill : h.FilledTo (map.at g) c) (hlength : c + ks.length ≤ 2 ^ 32)
    (hks : ∀ k ∈ ks, h.has k.node ∧ h.has k.value) (hapart : map.at g ∉ ks.map Keyword.node)
    (hnodup : (ks.map Keyword.node).Nodup) :
    Draft.Yields g (ks.forM (addEntry map)) h fun _ h' => Enters h (map.at g) ks h' := by
  induction ks generalizing h c with
  | nil => exact Draft.yields_pure (Enters.nil hh)
  | cons k ks ih =>
    obtain ⟨⟨hk, hvalue⟩, hrest⟩ := List.forall_mem_cons.1 hks
    rw [List.length_cons] at hlength
    have hc : c < 2 ^ 32 := by omega
    obtain ⟨hmk, hmks⟩ := List.ne_and_not_mem_of_not_mem_cons (List.map_cons ▸ hapart)
    have hfill' : (entered h (map.at g) k).FilledTo (map.at g) (c + 1) := by
      refine (hfill.pushItem (d := h.fresh) hmap hc).congr ?_
      rw [outgoing_entered hmap, if_neg hmk, if_pos rfl, outgoing_pushItem hmap, if_pos rfl]
    refine ((yields_entered hmap hk hvalue).mono fun _ h₁ hstep => ?_).bind
    rw [hstep]
    refine (ih (wellKept_entered hh hmap hvalue (hfill.ne_last hc)) (has_entered hmap) hfill'
      (by omega) (fun k' hk' => ?_) hmks (List.nodup_cons.1 hnodup).2).mono fun _ h' hnext => ?_
    · exact ⟨has_entered (hrest k' hk').1, has_entered (hrest k' hk').2⟩
    · exact Enters.cons hmap hfill hc (fun k' hk' => (hks k' hk').1) hapart hnodup hnext

/-! ## The call -/

/-- The number of an entry behind the map literal of a call. -/
def entryOf (g : Graph) (j : Nat) : NodeId := ⟨g.size + 1 + 2 * j⟩

theorem index_entryOf {j : Nat} : (entryOf g j).index = g.size + 1 + 2 * j := rfl

/-- What collecting keyword arguments makes of a graph. The call has its other arguments, in order,
and behind them a map literal, which is the first new node. The items of the map are entries, one
for each keyword argument and in their order, and the arguments have no edges any more. All other
nodes of the graph, and all other edges of the call, are as they were. -/
structure Collects (g : Graph) (n : NodeId) (positional : List NodeId) (ks : List Keyword)
    (h : Graph) : Prop where
  size : h.size = g.size + 1 + 2 * ks.length
  kind : ∀ m, g.has m → h.kind m = g.kind m
  payload : ∀ m, g.has m → h.payload m = g.payload m
  items : h.items n = positional ++ [g.fresh]
  others : (h.outgoing n).filter (fun e => !e.role.isItem) =
    (g.outgoing n).filter fun e => !e.role.isItem
  mapKind : h.kind g.fresh = .expr .mapLit
  mapPayload : h.payload g.fresh = .none
  mapItems : h.items g.fresh = (List.range ks.length).map (entryOf g)
  mapOthers : (h.outgoing g.fresh).filter (fun e => !e.role.isItem) = []
  entry : ∀ j k, ks[j]? = some k → IsEntry h (entryOf g j) k
  bare : ∀ k ∈ ks, h.outgoing k.node = []
  elsewhere : ∀ m, g.has m → m ≠ n → m ∉ ks.map Keyword.node → h.outgoing m = g.outgoing m
  kept : h.WellKept

theorem Enters.collects (hn : g.has n) (hlength : positional.length < 2 ^ 32)
    (hks : n ∉ ks.map Keyword.node)
    (he : Enters ((g.withItems n positional).add (.expr .mapLit) .none) g.fresh ks h) :
    Collects g n positional ks (h.pushItem n g.fresh) := by
  have hlist := relists_withItems hn positional
  have hfresh : (g.withItems n positional).fresh = g.fresh := congrArg NodeId.mk hlist.nodes.size
  have hold : ∀ m, g.has m → ((g.withItems n positional).add (.expr .mapLit) .none).has m := by
    intro m hm
    rw [has_add, has_congr hlist.nodes.size, hm]
    rfl
  have hmap : ((g.withItems n positional).add (.expr .mapLit) .none).has g.fresh := by
    rw [has_add, hfresh]
    simp
  have hsize : ((g.withItems n positional).add (.expr .mapLit) .none).size = g.size + 1 := by
    rw [size_add, hlist.nodes.size]
  have hcall : h.outgoing n = (g.withItems n positional).outgoing n :=
    (he.outgoing n (hold n hn) (ne_fresh hn) hks).trans (outgoing_add _ _)
  have hcall' : h.has n := by
    have hlt : n.index < g.size := of_decide_eq_true hn
    rw [has, he.size, hsize]
    exact decide_eq_true (by omega)
  have hfresh' : h.has g.fresh := by
    rw [has, he.size, hsize]
    exact decide_eq_true (by rw [index_fresh]; omega)
  have hfill : h.FilledTo n positional.length :=
    (filledTo_withItems hn hlength.le).congr hcall
  have hpush := relists_pushItem (d := g.fresh) (hfill.ascends hlength) hcall'
  have helse : ∀ m, m ≠ n → (h.pushItem n g.fresh).outgoing m = h.outgoing m := hpush.elsewhere
  have hentry : entryAt ((g.withItems n positional).add (.expr .mapLit) .none) = entryOf g := by
    funext j
    rw [entryAt, hsize, entryOf]
  have hbare : ((g.withItems n positional).add (.expr .mapLit) .none).outgoing g.fresh = [] := by
    rw [outgoing_add, ← hfresh, outgoing_of_not_has has_fresh]
  refine ⟨?_, fun m hm => ?_, fun m hm => ?_, ?_, ?_, ?_, ?_, ?_, ?_, fun j k hj => ?_,
    fun k hk => ?_, fun m hm hne hmem => ?_, ?_⟩
  · rw [hpush.nodes.size, he.size, hsize]
  · rw [hpush.nodes.kind, he.kind m (hold m hm), kind_add, hfresh, if_neg (ne_fresh hm),
      hlist.nodes.kind]
  · rw [hpush.nodes.payload, he.payload m (hold m hm), payload_add, hfresh, if_neg (ne_fresh hm),
      hlist.nodes.payload]
  · rw [hpush.items, items_congr hcall, hlist.items]
  · rw [hpush.others, hcall, hlist.others]
  · rw [hpush.nodes.kind, he.kind _ hmap, kind_add, if_pos hfresh.symm]
  · rw [hpush.nodes.payload, he.payload _ hmap, payload_add, if_pos hfresh.symm]
  · have hnone : ((g.withItems n positional).add (.expr .mapLit) .none).items g.fresh = [] := by
      rw [Graph.items, Graph.itemEdges, hbare]
      rfl
    rw [items_congr (helse _ (ne_fresh hn).symm), he.items, hnone, hentry, List.nil_append]
  · rw [helse _ (ne_fresh hn).symm, he.others, hbare]
    rfl
  · have hk := he.entry j k hj
    rw [hentry] at hk
    have hne : ∀ x : NodeId, g.size ≤ x.index → x ≠ n := by
      rintro x hx rfl
      have hlt : x.index < g.size := of_decide_eq_true hn
      omega
    refine hk.of_same ⟨hpush.nodes.kind _, hpush.nodes.payload _, helse _ (hne _ ?_)⟩
      ⟨hpush.nodes.kind _, hpush.nodes.payload _, helse _ (hne _ ?_)⟩
    · rw [index_entryOf]
      omega
    · rw [index_keyOf, index_entryOf]
      omega
  · have hkn : k.node ≠ n := fun h => hks (h ▸ List.mem_map_of_mem hk)
    rw [helse _ hkn, he.bare k hk]
  · rw [helse m hne, he.outgoing m (hold m hm) (ne_fresh hm) hmem, outgoing_add,
      hlist.elsewhere m hne]
  · exact wellKept_pushItem he.kept hcall' hfresh' (hfill.ne_last hlength)

/-! ## Parents -/

/-- Edges to nodes that were there before come from where they came from, unless the source is a
keyword argument, or are items of the call, or lead from an entry to its value. -/
inductive OldEdge (g : Graph) (n : NodeId) (positional : List NodeId) (ks : List Keyword) :
    NodeId → Edge → Prop
  | same {m : NodeId} {e : Edge} (he : e ∈ g.outgoing m) (hm : m ∉ ks.map Keyword.node)
      (hitem : m = n → e.role.isItem = false) : OldEdge g n positional ks m e
  | item {e : Edge} (hitem : e.role.isItem) (he : e.node ∈ positional) :
      OldEdge g n positional ks n e
  | value {j : Nat} {k : Keyword} (hk : ks[j]? = some k) :
      OldEdge g n positional ks (entryOf g j) ⟨.value, k.value⟩

theorem entry_or_key (hm : g.size < m.index) (hlt : m.index < g.size + 1 + 2 * ks.length) :
    ∃ j, j < ks.length ∧ (m = entryOf g j ∨ m = keyOf (entryOf g j)) := by
  refine ⟨(m.index - (g.size + 1)) / 2, by omega, ?_⟩
  rcases Nat.mod_two_eq_zero_or_one (m.index - (g.size + 1)) with hpar | hpar
  · exact Or.inl (congrArg NodeId.mk (by omega))
  · exact Or.inr (congrArg NodeId.mk (by rw [index_entryOf]; omega))

theorem Collects.oldEdge (hc : Collects g n positional ks h) (hks : n ∉ ks.map Keyword.node)
    {e : Edge} (he : e ∈ h.outgoing m) (hold : g.has e.node) : OldEdge g n positional ks m e := by
  have hm : h.has m := hc.kept.has_source he
  have hlt : m.index < g.size + 1 + 2 * ks.length := hc.size ▸ of_decide_eq_true hm
  have hnode : e.node.index < g.size := of_decide_eq_true hold
  rcases Nat.lt_trichotomy m.index g.size with hm | hm | hm
  · by_cases hmn : m = n
    · subst hmn
      cases hitem : e.role.isItem with
      | false =>
        refine .same ?_ hks fun _ => hitem
        have hmem : e ∈ (h.outgoing m).filter fun e => !e.role.isItem :=
          List.mem_filter.2 ⟨he, by rw [hitem]; rfl⟩
        rw [hc.others] at hmem
        exact (List.mem_filter.1 hmem).1
      | true =>
        have hmem : e.node ∈ h.items m := mem_items.2 ⟨e.role, hitem, he⟩
        rw [hc.items] at hmem
        refine .item hitem ((List.mem_append.1 hmem).resolve_right fun hfresh => ?_)
        exact ne_fresh hold (List.mem_singleton.1 hfresh)
    · have hmk : m ∉ ks.map Keyword.node := by
        intro hmem
        obtain ⟨k, hk, rfl⟩ := List.mem_map.1 hmem
        rw [hc.bare k hk] at he
        cases he
      rw [hc.elsewhere m (decide_eq_true hm) hmn hmk] at he
      exact .same he hmk fun h => absurd h hmn
  · -- the items of the map are new
    obtain rfl : m = g.fresh := congrArg NodeId.mk hm
    cases hitem : e.role.isItem with
    | false =>
      have hmem : e ∈ (h.outgoing g.fresh).filter fun e => !e.role.isItem :=
        List.mem_filter.2 ⟨he, by rw [hitem]; rfl⟩
      rw [hc.mapOthers] at hmem
      cases hmem
    | true =>
      have hmem : e.node ∈ h.items g.fresh := mem_items.2 ⟨e.role, hitem, he⟩
      rw [hc.mapItems] at hmem
      obtain ⟨j, -, hj⟩ := List.mem_map.1 hmem
      have hindex := congrArg NodeId.index hj
      rw [index_entryOf] at hindex
      omega
  · -- the other new nodes come in pairs, an entry and its key
    obtain ⟨j, hj, rfl | rfl⟩ := entry_or_key hm hlt
    · have hentry := hc.entry j _ (List.getElem?_eq_getElem hj)
      rw [hentry.outgoing] at he
      rcases List.mem_cons.1 he with rfl | he
      · rw [index_keyOf, index_entryOf] at hnode
        omega
      · obtain rfl := List.mem_singleton.1 he
        exact .value (List.getElem?_eq_getElem hj)
    · rw [(hc.entry j _ (List.getElem?_eq_getElem hj)).keyOutgoing] at he
      cases he

section Parents

variable (hg : g.WellKept) (hc : Collects g n positional ks h) (hks : n ∉ ks.map Keyword.node)
  (hvalue : ∀ k ∈ ks, ⟨.value, k.value⟩ ∈ g.outgoing k.node)

include hg hc hks hvalue

/-- A keyword argument that was an item of the call alone has no parents any more. -/
theorem Collects.lone (hitem : ∀ k ∈ ks, k.node ∈ g.items n)
    (honly : ∀ k ∈ ks, g.parents k.node = [n]) (hpositional : ∀ k ∈ ks, k.node ∉ positional) :
    ∀ k ∈ ks, h.parents k.node = [] := by
  intro k hk
  obtain ⟨i, hi, hitem⟩ := mem_items.1 (hitem k hk)
  have hone : ∀ {r : Role} {a : NodeId}, r.isStructural → ⟨r, k.node⟩ ∈ g.outgoing a →
      a = n ∧ r = i := fun hr ha =>
    hg.only_edge (honly k hk) hr ha (Role.isStructural_of_isItem hi) hitem
  refine List.eq_nil_iff_forall_not_mem.2 fun m hm => ?_
  obtain ⟨r, hr, he⟩ := (mem_parents_iff hc.kept).1 hm
  have hhas : g.has k.node := hg.has_target hitem
  have hsource := hc.oldEdge hks he hhas
  generalize hedge : (⟨r, k.node⟩ : Edge) = e at hsource
  cases hsource with
  | same he hm hplain =>
    subst hedge
    obtain ⟨rfl, rfl⟩ := hone hr he
    cases hi.symm.trans (hplain rfl)
  | item _ hmem =>
    subst hedge
    exact hpositional k hk hmem
  | value hk' =>
    -- an argument that was the value of another one had a second parent
    obtain ⟨hr, hnode⟩ := Edge.mk.inj hedge
    have hmem := hvalue _ (List.mem_of_getElem? hk')
    rw [← hnode] at hmem
    obtain ⟨-, rfl⟩ := hone (r := .value) rfl hmem
    cases hi

/-- A value that belonged to its keyword argument alone belongs to the entry alone. -/
theorem Collects.passed (hnodup : (ks.map Keyword.node).Nodup)
    (hpositional : ∀ x ∈ positional, x ∈ g.items n) :
    ∀ j k, ks[j]? = some k → g.parents k.value = [k.node] →
      h.parents k.value = [entryOf g j] := by
  intro j k hj hparent
  have hk := List.mem_of_getElem? hj
  have hone : ∀ {r : Role} {a : NodeId}, r.isStructural → ⟨r, k.value⟩ ∈ g.outgoing a →
      a = k.node ∧ r = .value := fun hr ha => hg.only_edge hparent hr ha rfl (hvalue k hk)
  refine hc.kept.parents_eq_singleton (r := .value) rfl ?_ fun q a hq ha => ?_
  · rw [(hc.entry j k hj).outgoing]
    exact List.mem_cons_of_mem _ List.mem_cons_self
  have hhas : g.has k.value := hg.has_target (hvalue k hk)
  have hsource := hc.oldEdge hks ha hhas
  generalize hedge : (⟨q, k.value⟩ : Edge) = e at hsource
  cases hsource with
  | same he hm _ =>
    subst hedge
    exact absurd (List.mem_map_of_mem hk) ((hone hq he).1 ▸ hm)
  | item _ hmem =>
    subst hedge
    obtain ⟨r, hr, he⟩ := mem_items.1 (hpositional _ hmem)
    obtain ⟨-, rfl⟩ := hone (Role.isStructural_of_isItem hr) he
    cases hr
  | @value j' k' hj' =>
    obtain ⟨rfl, hnode⟩ := Edge.mk.inj hedge
    have hmem := hvalue k' (List.mem_of_getElem? hj')
    rw [← hnode] at hmem
    obtain ⟨hsame, -⟩ := hone (r := .value) rfl hmem
    have hplace : ∀ {j : Nat} {k : Keyword}, ks[j]? = some k →
        (ks.map Keyword.node)[j]? = some k.node := fun hj => by rw [List.getElem?_map, hj]; rfl
    have hj'' := (hplace hj').trans ((congrArg some hsame).trans (hplace hj).symm)
    have hlt : j' < (ks.map Keyword.node).length := by
      rw [List.length_map]
      exact (List.getElem?_eq_some_iff.1 hj').1
    exact ⟨congrArg (entryOf g) ((List.getElem?_inj hlt hnodup).1 hj''), rfl⟩

end Parents

/-! ## The rule -/

/-- Keyword arguments with names and values are read in order. -/
theorem exists_keywords {xs : List NodeId}
    (hxs : ∀ x ∈ xs, (g.name? x).isSome ∧ (g.child? x .value).isSome) :
    ∃ ks, xs.mapM (readKeyword g) = .ok ks ∧ ks.map Keyword.node = xs ∧
      ∀ k ∈ ks, g.name? k.node = some k.name ∧ g.child? k.node .value = some k.value := by
  induction xs with
  | nil => exact ⟨[], rfl, rfl, nofun⟩
  | cons x xs ih =>
    obtain ⟨⟨hname, hchild⟩, hxs⟩ := List.forall_mem_cons.1 hxs
    obtain ⟨name, hname⟩ := Option.isSome_iff_exists.1 hname
    obtain ⟨v, hchild⟩ := Option.isSome_iff_exists.1 hchild
    obtain ⟨ks, hmore, hnodes, hall⟩ := ih hxs
    have hread : readKeyword g x = .ok ⟨x, name, v⟩ := by
      rw [readKeyword, requireName_eq_ok.2 hname, Run.ok_bind, requireChild_eq_ok.2 hchild]
      rfl
    refine ⟨⟨x, name, v⟩ :: ks, ?_, by rw [List.map_cons, hnodes],
      List.forall_mem_cons.2 ⟨⟨hname, hchild⟩, hall⟩⟩
    rw [List.mapM_cons, hread, Run.ok_bind, hmore]
    rfl

/-- Arguments that are items of one call alone are different. -/
theorem nodup_keywords (hg : g.WellKept)
    (honly : ∀ k ∈ (g.items n).filter (isKwArg g), g.parents k = [n]) :
    ((g.items n).filter (isKwArg g)).Nodup := by
  have hroles : ((g.itemEdges n).map Edge.role).Nodup := by
    refine (((Edge.perm_byRole _).map Edge.role).nodup_iff).2 ?_
    exact (hg.unique n).sublist (List.filter_sublist.map _)
  rw [Graph.items, List.filter_map] at honly ⊢
  refine List.Nodup.map_on (fun e he f hf hef => ?_) ((List.Nodup.of_map _ hroles).filter _)
  have hedge : ∀ e ∈ (g.itemEdges n).filter (isKwArg g ∘ Edge.node),
      e ∈ g.outgoing n ∧ e.role.isItem := fun e he =>
    List.mem_filter.1 (Edge.mem_byRole.1 (List.mem_filter.1 he).1)
  have hone := honly e.node (List.mem_map_of_mem he)
  have hother : (⟨f.role, e.node⟩ : Edge) ∈ g.outgoing n := by
    rw [hef]
    exact (hedge f hf).1
  have hrole := (hg.only_edge hone (Role.isStructural_of_isItem (hedge e he).2) (hedge e he).1
    (Role.isStructural_of_isItem (hedge f hf).2) hother).2
  exact List.inj_on_of_nodup_map hroles (List.mem_filter.1 he).1 (List.mem_filter.1 hf).1 hrole

theorem effect_of_keywords
    (hread : ((g.items n).filter (isKwArg g)).mapM (readKeyword g) = .ok ks) :
    collectKeywordArgs.effect g n = .ok (some (Draft.patch do
      (do
        Draft.clearItems n
        ((g.items n).filter fun arg => !isKwArg g arg).forM fun arg => Draft.pushItem n arg)
      let map ← Draft.node (.expr .mapLit) .none
      ks.forM (addEntry map)
      Draft.pushItem n map)) := by
  simp only [collectKeywordArgs, hread, Run.ok_bind]
  rfl

theorem yields_collects (hg : g.WellKept) (hn : g.has n) (hpositional : ∀ x ∈ positional, g.has x)
    (hroom : positional.length < 2 ^ 32) (hmany : ks.length ≤ 2 ^ 32)
    (hks : ∀ k ∈ ks, g.has k.node ∧ g.has k.value) (hapart : n ∉ ks.map Keyword.node)
    (hnodup : (ks.map Keyword.node).Nodup) :
    Draft.Yields g (do
      (do
        Draft.clearItems n
        positional.forM fun arg => Draft.pushItem n arg)
      let map ← Draft.node (.expr .mapLit) .none
      ks.forM (addEntry map)
      Draft.pushItem n map) g fun _ h => Collects g n positional ks h := by
  have hlist := relists_withItems hn positional
  have hfresh : (g.withItems n positional).fresh = g.fresh := congrArg NodeId.mk hlist.nodes.size
  refine ((Draft.yields_refill hn hpositional).mono fun _ h₁ hrefill => ?_).bind
  rw [hrefill]
  refine (Draft.yields_node fun map hmap => ?_).bind
  rw [hfresh] at hmap
  have hold : ∀ m, g.has m → ((g.withItems n positional).add (.expr .mapLit) .none).has m := by
    intro m hm
    rw [has_add, has_congr hlist.nodes.size, hm]
    rfl
  have hnew : ((g.withItems n positional).add (.expr .mapLit) .none).has (map.at g) := by
    rw [has_add, hfresh, hmap]
    simp
  have hempty : ((g.withItems n positional).add (.expr .mapLit) .none).FilledTo (map.at g) 0 := by
    intro e he
    rw [outgoing_add, hmap, ← hfresh, outgoing_of_not_has has_fresh] at he
    cases he
  have hmapks : map.at g ∉ ks.map Keyword.node := by
    intro hmem
    obtain ⟨k, hk, hkmap⟩ := List.mem_map.1 hmem
    exact ne_fresh (hks k hk).1 (hkmap.trans hmap)
  refine ((yields_enters (wellKept_add (wellKept_withItems hg hn hpositional hroom.le) _ _) hnew
    hempty (by omega) (fun k hk => ⟨hold _ (hks k hk).1, hold _ (hks k hk).2⟩) hmapks
    hnodup).mono fun _ h₂ henters => ?_).bind
  rw [hmap] at henters
  have hhas : ∀ m, ((g.withItems n positional).add (.expr .mapLit) .none).has m → h₂.has m := by
    intro m hm
    have hlt := of_decide_eq_true hm
    rw [has, henters.size]
    exact decide_eq_true (by omega)
  refine Draft.yields_edit ?_ ?_
  · have hcall : (Handle.old n).at g = n := rfl
    simp [Edit.at, Mutation.names, hcall, hhas _ (hold n hn), hhas _ hnew]
  · have hat : (Edit.pushItem (.old n) map).at g = .pushItem n g.fresh := by
      rw [Edit.at, hmap]
      rfl
    rw [hat]
    exact henters.collects hn hroom hapart

/-- Collecting the keyword arguments of a call loses nothing. The call may have any arguments, at
least one of them a keyword argument, in whatever order; each keyword argument has a name and a
value, and is an item of the call alone. Then committing the patch puts a map of the keyword
arguments behind the other ones, with the very nodes of their values, which get no other parents if
they had none, and leaves the arguments themselves without edges and parents, so that the rule does
not apply to the call again. -/
theorem collect_keywords (hg : g.WellKept)
    (hkind : g.kind n = .expr .call ∨ g.kind n = .expr .methodCall) (hn : g.isAttached n)
    (hany : ∃ k ∈ g.items n, isKwArg g k)
    (hkeywords : ∀ k ∈ g.items n, isKwArg g k →
      (g.name? k).isSome ∧ (g.child? k .value).isSome ∧ g.parents k = [n]) :
    ∃ ks h, ks.map Keyword.node = (g.items n).filter (isKwArg g) ∧
      (∀ k ∈ ks, g.name? k.node = some k.name ∧ g.child? k.node .value = some k.value) ∧
      (collectKeywordArgs.tryAt Graph.commit n).run g = (.ok true, h) ∧
      Collects g n ((g.items n).filter fun x => !isKwArg g x) ks h ∧
      (∀ k ∈ ks, h.parents k.node = []) ∧
      (∀ j k, ks[j]? = some k → g.parents k.value = [k.node] →
        h.parents k.value = [entryOf g j]) ∧
      collectKeywordArgs.applies h n = false := by
  have hshaped : ∀ k ∈ (g.items n).filter (isKwArg g),
      (g.name? k).isSome ∧ (g.child? k .value).isSome := by
    intro k hk
    obtain ⟨hk, hkw⟩ := List.mem_filter.1 hk
    exact ⟨(hkeywords k hk hkw).1, (hkeywords k hk hkw).2.1⟩
  obtain ⟨ks, hread, hnodes, hks⟩ := exists_keywords hshaped
  have hmem : ∀ k ∈ ks, k.node ∈ g.items n ∧ isKwArg g k.node := fun k hk =>
    List.mem_filter.1 (hnodes ▸ List.mem_map_of_mem hk)
  have honly : ∀ k ∈ ks, g.parents k.node = [n] := fun k hk =>
    (hkeywords _ (hmem k hk).1 (hmem k hk).2).2.2
  have hnodup : (ks.map Keyword.node).Nodup := by
    rw [hnodes]
    refine nodup_keywords hg fun k hk => ?_
    obtain ⟨hk, hkw⟩ := List.mem_filter.1 hk
    exact (hkeywords k hk hkw).2.2
  have hvalue : ∀ k ∈ ks, ⟨.value, k.value⟩ ∈ g.outgoing k.node := fun k hk =>
    mem_of_child? (hks k hk).2
  have hcall : isKwArg g n = false := by
    rcases hkind with hk | hk <;> simp [isKwArg, hk]
  have hapart : n ∉ ks.map Keyword.node := by
    rw [hnodes]
    intro hmem
    cases hcall.symm.trans (List.mem_filter.1 hmem).2
  have hhas : g.has n := by
    rcases hkind with hk | hk
    · exact has_of_kind hk (by decide)
    · exact has_of_kind hk (by decide)
  have hpositional : ∀ x ∈ (g.items n).filter fun x => !isKwArg g x, g.has x := fun x hx =>
    hg.has_item (List.mem_filter.1 hx).1
  -- the keyword argument that there is leaves a place for the map
  have hlength := List.length_eq_length_filter_add (l := g.items n) (isKwArg g)
  have hitems := length_items_le hg n
  have hsome : 0 < ((g.items n).filter (isKwArg g)).length := by
    obtain ⟨k, hk, hkw⟩ := hany
    exact List.length_pos_of_mem (List.mem_filter.2 ⟨hk, hkw⟩)
  have hmany : ks.length = ((g.items n).filter (isKwArg g)).length := by
    rw [← hnodes, List.length_map]
  obtain ⟨h, hrun, hc⟩ := run_tryAt_of_yields hg
    (by
      obtain ⟨k, hk, hkw⟩ := hany
      rcases hkind with hkind | hkind <;>
        simpa [collectKeywordArgs, hkind, hn] using ⟨k, hk, hkw⟩)
    (effect_of_keywords hread)
    (yields_collects hg hhas hpositional (by omega) (by omega)
      (fun k hk => ⟨hg.has_item (hmem k hk).1, hg.has_target (hvalue k hk)⟩) hapart hnodup)
  refine ⟨ks, h, hnodes, hks, hrun, hc, ?_, ?_, ?_⟩
  · refine hc.lone hg hapart hvalue (fun k hk => (hmem k hk).1) honly fun k hk hpos => ?_
    have hno := (List.mem_filter.1 hpos).2
    rw [(hmem k hk).2] at hno
    cases hno
  · exact hc.passed hg hapart hvalue hnodup fun x hx => (List.mem_filter.1 hx).1
  · have hnone : (h.items n).any (isKwArg h) = false := by
      rw [hc.items, List.any_append, Bool.or_eq_false_iff]
      refine ⟨List.any_eq_false.2 fun x hx => ?_, by simp [isKwArg, hc.mapKind]⟩
      obtain ⟨hx, hkw⟩ := List.mem_filter.1 hx
      simpa [isKwArg, hc.kind x (hg.has_item hx)] using hkw
    simp [collectKeywordArgs, hnone]

/-- A block with the call `f(a: 1, x, b: x, y)`, where both keyword arguments stand before other
ones. -/
def keywordChanges : List Change :=
  [.single (.add (.stmt .block) .none), .single (.add (.expr .call) (.str "f")),
    .single (.add (.surface .kwArg) (.str "a")), .single (.add (.expr .intLit) (.int 1)),
    .single (.add (.expr .ident) (.str "x")), .single (.add (.surface .kwArg) (.str "b")),
    .single (.add (.expr .ident) (.str "x")), .single (.add (.expr .ident) (.str "y")),
    .single (.pushItem ⟨0⟩ ⟨1⟩), .single (.setChild ⟨2⟩ .value ⟨3⟩),
    .single (.setChild ⟨5⟩ .value ⟨6⟩)] ++
  [2, 4, 5, 7].map fun x => .single (.pushItem ⟨1⟩ ⟨x⟩)

def keywordCall : Graph := keywordChanges.foldl change empty

/-- The call becomes `f(x, y, {"a": 1, "b": x})`. -/
theorem collect_keywords_interleaved : keywordCall.WellKept ∧ keywordCall.isAttached ⟨1⟩ ∧
    keywordCall.items ⟨1⟩ = [⟨2⟩, ⟨4⟩, ⟨5⟩, ⟨7⟩] ∧
    ∃ ks h, ks.map Keyword.node = [⟨2⟩, ⟨5⟩] ∧
      (collectKeywordArgs.tryAt Graph.commit ⟨1⟩).run keywordCall = (.ok true, h) ∧
      Collects keywordCall ⟨1⟩ [⟨4⟩, ⟨7⟩] ks h ∧ h.parents ⟨2⟩ = [] ∧
      h.items ⟨1⟩ = [⟨4⟩, ⟨7⟩, ⟨8⟩] ∧ h.items ⟨8⟩ = [⟨9⟩, ⟨11⟩] ∧
      collectKeywordArgs.applies h ⟨1⟩ = false := by
  have hkept : keywordCall.WellKept :=
    wellKept_foldl_change keywordChanges wellKept_empty (by decide)
  obtain ⟨ks, h, hnodes, -, hrun, hc, hlone, -, hdone⟩ := collect_keywords (n := ⟨1⟩) hkept
    (by decide) (by decide) (by decide) (by decide)
  have hmany : ks.length = 2 := by
    rw [← List.length_map (f := Keyword.node), hnodes]
    decide
  have hfirst : (⟨2⟩ : NodeId) ∈ ks.map Keyword.node := by
    rw [hnodes]
    decide
  obtain ⟨k, hk, hk2⟩ := List.mem_map.1 hfirst
  refine ⟨hkept, by decide, by decide, ks, h, hnodes.trans (by decide), hrun, hc,
    hk2 ▸ hlone k hk, hc.items.trans (by decide), ?_, hdone⟩
  rw [show (⟨8⟩ : NodeId) = keywordCall.fresh from by decide, hc.mapItems, hmany]
  decide

end Lowering

end TypeFlow
