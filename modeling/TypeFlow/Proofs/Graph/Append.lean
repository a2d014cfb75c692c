import TypeFlow.Proofs.Graph.Mutation
import TypeFlow.Proofs.Graph.Refill
/-!
# When a new item comes last

An item gets the place behind all those in use, and 32 bits number the places. A push appends
(`Appends`) exactly if the last place is free: behind it the next one would be the first, so that
the item goes in front of all others, or takes a place that is in use.

A history uses no place behind those that it names itself and those that its pushes can come to
(`Indexed`, `Change.reach`), so a list that was made by fewer changes than there are places has
room.
-/

namespace TypeFlow

/-! ## How far a history can come -/

/-- A bound on the places in use, after an edge of a role is put in where `c` bounds them. -/
def Role.reach (c : Nat) : Role → Nat
  | .item i => max c (i.toNat + 1)
  | _ => c

/-- A bound on the places in use, after a mutation of a graph that `c` bounds. -/
def Mutation.reach (c : Nat) : Mutation → Nat
  | .setChild _ r _ => r.reach c
  | .pushItem _ _ => c + 1
  | _ => c

/-- A bound on the places in use, after an edit of a graph that `c` bounds. -/
def Edit.reach (c : Nat) : Edit → Nat
  | .setChild _ r _ => r.reach c
  | .pushItem _ _ => c + 1
  | _ => c

/-- A bound on the places in use, after a change of a graph that `c` bounds. -/
def Change.reach (c : Nat) : Change → Nat
  | .single m => m.reach c
  | .patch p => p.edits.foldl Edit.reach c

theorem Role.le_reach (c : Nat) (r : Role) : c ≤ r.reach c := by
  cases r with
  | item i => exact Nat.le_max_left c (i.toNat + 1)
  | _ => exact Nat.le_refl c

theorem Edit.le_reach (c : Nat) (e : Edit) : c ≤ e.reach c := by
  cases e with
  | setChild src r dst => exact r.le_reach c
  | pushItem src dst => exact Nat.le_succ c
  | _ => exact Nat.le_refl c

theorem Edit.le_foldl_reach : ∀ (es : List Edit) (c : Nat), c ≤ es.foldl Edit.reach c
  | [], c => Nat.le_refl c
  | e :: es, c => (e.le_reach c).trans (le_foldl_reach es _)

/-- Handles do not matter for the places in use. -/
theorem Edit.reach_resolve {created : List NodeId} {e : Edit} {m : Mutation} {c : Nat}
    (h : e.resolve created = .ok m) : m.reach c = e.reach c := by
  cases e with
  | setChild src r dst | pushItem src dst | replace src dst =>
    obtain ⟨s, -, h⟩ := Run.bind_eq_ok.1 h
    obtain ⟨d, -, h⟩ := Run.bind_eq_ok.1 h
    obtain rfl := Run.pure_eq_ok.1 h
    rfl
  | removeChild src | clearItems src | detach src | setKind src | setPayload src =>
    obtain ⟨s, -, h⟩ := Run.bind_eq_ok.1 h
    obtain rfl := Run.pure_eq_ok.1 h
    rfl

namespace Graph

variable {g : Graph} {s d : NodeId} {c : Nat}

/-! ## The place behind all others -/

/-- The number behind all places in use, were there no last one. -/
def pastItems (g : Graph) (s : NodeId) : Nat :=
  ((g.outgoing s).filterMap (·.role.index?)).foldl (fun top i => max top (i.toNat + 1)) 0

theorem hasRoom_iff : g.hasRoom s ↔ ∀ e ∈ g.outgoing s, e.role ≠ .item 0xFFFFFFFF := by
  simp [hasRoom]

theorem toNat_foldl_max : ∀ (is : List UInt32) (top : UInt32), (∀ i ∈ is, i ≠ 0xFFFFFFFF) →
    (is.foldl (fun top i => max top (i + 1)) top).toNat =
      is.foldl (fun top i => max top (i.toNat + 1)) top.toNat
  | [], _, _ => rfl
  | i :: is, top, h => by
    obtain ⟨hi, his⟩ := List.forall_mem_cons.1 h
    have hmax : (max top (i + 1)).toNat = max top.toNat (i.toNat + 1) := by
      rw [← toNat_succ hi]
      change (if top ≤ i + 1 then i + 1 else top).toNat = _
      split
      · next hle => exact (Nat.max_eq_right (UInt32.le_iff_toNat_le.1 hle)).symm
      · next hle => exact (Nat.max_eq_left (UInt32.lt_iff_toNat_lt.1 (UInt32.not_le.1 hle)).le).symm
    rw [List.foldl_cons, toNat_foldl_max is _ his, hmax]
    rfl

/-- As long as there is room, the next place is computed as if there were no last one. -/
theorem toNat_nextIndex (hroom : g.hasRoom s) : (g.nextIndex s).toNat = g.pastItems s :=
  toNat_foldl_max _ 0 (indices_ne_last (hasRoom_iff.1 hroom))

/-! ## Histories -/

/-- The numbers of all places in use lie below `c`. -/
def Indexed (g : Graph) (c : Nat) : Prop := ∀ s, g.FilledTo s c

theorem Indexed.mono {c' : Nat} (hg : g.Indexed c) (hc : c ≤ c') : g.Indexed c' :=
  fun s e he i hi => (hg s e he i hi).trans_le hc

/-- Edges with the roles of edges from before use no other places. -/
theorem Indexed.of_roles {h : Graph} (hg : g.Indexed c)
    (hroles : ∀ s, ∀ e ∈ h.outgoing s, ∃ f ∈ g.outgoing s, f.role = e.role) : h.Indexed c := by
  intro s e he i hi
  obtain ⟨f, hf, hr⟩ := hroles s e he
  exact hg s f hf i (hr.trans hi)

theorem indexed_empty : empty.Indexed 0 := by
  intro s e he
  rw [outgoing_of_not_has rfl] at he
  cases he

theorem Indexed.link {r : Role} (hg : g.Indexed c) (hr : ∀ i, r = .item i → i.toNat < c) :
    (g.link s r d).Indexed c := by
  intro x e he i hi
  cases hs : g.has s with
  | false =>
    rw [Graph.link, outgoing_setIncoming, outgoing_setOutgoing, if_neg (by simp [hs])] at he
    exact hg x e he i hi
  | true =>
    rw [outgoing_link hs] at he
    split at he
    · rcases List.mem_append.1 he with he | he
      · exact hg x e he i hi
      · obtain rfl := List.mem_singleton.1 he
        exact hr i hi
    · exact hg x e he i hi

theorem Indexed.removeChild (hg : g.Indexed c) (r : Role) : (g.removeChild s r).Indexed c := by
  rcases removeChild_eq g s r with h | ⟨e, h⟩
  · rwa [h]
  · rw [h]
    refine hg.of_roles fun x e he => ⟨e, ?_, rfl⟩
    rw [outgoing_unlink] at he
    split at he
    · exact List.mem_of_mem_erase he
    · exact he

theorem Indexed.removeWhere (hg : g.Indexed c) (p : Edge → Bool) :
    (g.removeWhere s p).Indexed c := by
  refine hg.of_roles fun x e he => ⟨e, ?_, rfl⟩
  rw [outgoing_removeWhere] at he
  split at he
  · exact (List.mem_filter.1 he).1
  · exact he

theorem Indexed.replace {old new : NodeId} (hg : g.Indexed c) : (g.replace old new).Indexed c := by
  by_cases hne : old = new
  · rwa [Graph.replace, if_pos hne]
  · refine hg.of_roles fun x e he => ?_
    rw [outgoing_replace hne] at he
    obtain ⟨f, hf, rfl⟩ := List.mem_map.1 he
    exact ⟨f, hf, (role_turn x _ f).symm⟩

theorem Indexed.mutate (hg : g.Indexed c) (m : Mutation) : (g.mutate m).Indexed (m.reach c) := by
  cases m with
  | add k p => exact hg.of_roles fun x e he => ⟨e, by rwa [← outgoing_add], rfl⟩
  | setKind n k => exact hg.of_roles fun x e he => ⟨e, by rwa [← outgoing_setKind], rfl⟩
  | setPayload n p => exact hg.of_roles fun x e he => ⟨e, by rwa [← outgoing_setPayload], rfl⟩
  | setChild s r d =>
    refine ((hg.removeChild r).mono (r.le_reach c)).link ?_
    rintro i rfl
    exact Nat.lt_of_succ_le (Nat.le_max_right c (i.toNat + 1))
  | removeChild s r => exact hg.removeChild r
  | pushItem s d =>
    refine (hg.mono (Nat.le_succ c)).link ?_
    rintro i hi
    obtain rfl := Role.item.inj hi
    -- Behind the last place every number is a bound.
    rcases Nat.lt_or_ge c (2 ^ 32) with hc | hc
    · exact Nat.lt_succ_of_le (FilledTo.toNat_nextIndex_le (hg s) hc)
    · exact Nat.lt_succ_of_lt ((g.nextIndex s).toNat_lt.trans_le hc)
  | clearItems s => exact hg.removeWhere _
  | detach n => exact hg.removeWhere _
  | replace old new => exact hg.replace

theorem Indexed.addAll : ∀ (nodes : List (NodeKind × Payload)) {g : Graph}, g.Indexed c →
    (g.addAll nodes).Indexed c
  | [], _, hg => hg
  | (k, p) :: nodes, _, hg => Indexed.addAll nodes (hg.mutate (.add k p))

/-- The edits of a patch, behind which or at the first stale handle the graph is left. -/
theorem Indexed.applyEdits (created : List NodeId) : ∀ (es : List Edit) {g : Graph} {c : Nat},
    g.Indexed c → ((applyEdits created es).run g).2.Indexed (es.foldl Edit.reach c)
  | [], _, _, hg => hg
  | e :: es, g, c, hg => by
    rw [run_applyEdits_cons]
    cases hr : e.resolve created with
    | error fault => exact hg.mono (Edit.le_foldl_reach (e :: es) c)
    | ok m =>
      have hm := hg.mutate m
      rw [Edit.reach_resolve hr] at hm
      exact hm.applyEdits created es

theorem Indexed.change (hg : g.Indexed c) (ch : Change) : (g.change ch).Indexed (ch.reach c) := by
  cases ch with
  | single m => exact hg.mutate m
  | patch p =>
    rw [change_patch]
    exact (hg.addAll p.nodes).applyEdits _ p.edits

theorem Indexed.foldl : ∀ (cs : List Change) {g : Graph} {c : Nat}, g.Indexed c →
    (cs.foldl Graph.change g).Indexed (cs.foldl Change.reach c)
  | [], _, _, hg => hg
  | ch :: cs, _, _, hg => Indexed.foldl cs (hg.change ch)

theorem Indexed.hasRoom (hg : g.Indexed c) (hc : c < 2 ^ 32) : g.hasRoom s :=
  hasRoom_iff.2 ((hg s).ne_last hc)

/-! ## Appending -/

/-- A push comes behind all items of the list, on a number of its own, and changes nothing else. -/
structure Appends (g : Graph) (s d : NodeId) : Prop where
  index : (g.nextIndex s).toNat = g.pastItems s
  above : ∀ e ∈ g.outgoing s, ∀ i, e.role = .item i → i < g.nextIndex s
  items : (g.pushItem s d).items s = g.items s ++ [d]
  outgoing : ∀ m, (g.pushItem s d).outgoing m =
    if m = s then g.outgoing m ++ [⟨.item (g.nextIndex s), d⟩] else g.outgoing m
  incoming : ∀ m, (g.pushItem s d).incoming m =
    if m = d then g.incoming m ++ [⟨.item (g.nextIndex s), s⟩] else g.incoming m
  nodes : SameNodes g (g.pushItem s d)

theorem appends_of_hasRoom (hs : g.has s) (hd : g.has d) (hroom : g.hasRoom s) :
    g.Appends s d where
  index := toNat_nextIndex hroom
  above := lt_nextIndex (hasRoom_iff.1 hroom)
  items := items_pushItem
    (fun e he i hi => UInt32.le_of_lt (lt_nextIndex (hasRoom_iff.1 hroom) e he i hi)) hs
  outgoing _ := outgoing_link hs
  incoming _ := incoming_link hd
  nodes := sameNodes_link _ _ _

/-- No index lies above the last one. -/
theorem Appends.hasRoom (h : g.Appends s d) : g.hasRoom s := by
  refine hasRoom_iff.2 fun e he hr => ?_
  have hlt := UInt32.lt_iff_toNat_lt.1 (h.above e he _ hr)
  have hlast : (0xFFFFFFFF : UInt32).toNat = 2 ^ 32 - 1 := rfl
  have hbound := (g.nextIndex s).toNat_lt
  omega

/-- In every graph a push appends exactly if the last place of the list is free, and then the
records of the edges stay kept. It is free in whatever a history makes that cannot have come to
it: one whose pushes, behind the largest place that it names itself, are fewer than the places. -/
theorem pushItem_appends (hs : g.has s) (hd : g.has d) :
    (g.Appends s d ↔ g.hasRoom s) ∧
    (g.WellKept → g.hasRoom s → (g.pushItem s d).WellKept) ∧
    ∀ cs : List Change, cs.foldl change empty = g → cs.foldl Change.reach 0 < 2 ^ 32 →
      g.hasRoom s := by
  refine ⟨⟨Appends.hasRoom, appends_of_hasRoom hs hd⟩, fun hg hroom => ?_, ?_⟩
  · exact wellKept_pushItem hg hs hd (hasRoom_iff.1 hroom)
  · rintro cs rfl hreach
    exact (indexed_empty.foldl cs).hasRoom hreach

/-- Pushes and indices that a caller sets: gaps, a list that is dropped, and pushes of a patch. -/
def sparseChanges : List Change :=
  [.single (.add (.stmt .block) .none), .single (.add (.expr .ident) (.str "a")),
    .single (.pushItem ⟨0⟩ ⟨1⟩), .single (.clearItems ⟨0⟩),
    .single (.setChild ⟨0⟩ (.item 7) ⟨1⟩), .single (.setChild ⟨0⟩ (.item 3) ⟨1⟩),
    .patch ⟨[(.expr .ident, .str "b")], [.pushItem (.old ⟨0⟩) (.new 0)]⟩,
    .single (.removeChild ⟨0⟩ (.item 7))]

theorem pushItem_appends_sparse : ∃ g : Graph, g = sparseChanges.foldl change empty ∧
    g.has ⟨0⟩ ∧ g.has ⟨1⟩ ∧ g.WellKept ∧ sparseChanges.foldl Change.reach 0 < 2 ^ 32 ∧
    g.Appends ⟨0⟩ ⟨1⟩ ∧ (g.pushItem ⟨0⟩ ⟨1⟩).WellKept ∧ g.nextIndex ⟨0⟩ = 9 := by
  have hfrom := pushItem_appends (g := sparseChanges.foldl change empty) (s := ⟨0⟩) (d := ⟨1⟩)
    (by decide) (by decide)
  have hkept := wellKept_foldl_change sparseChanges wellKept_empty (by decide)
  have hroom := hfrom.2.2 sparseChanges rfl (by decide)
  exact ⟨_, rfl, by decide, by decide, hkept, by decide, hfrom.1.2 hroom,
    hfrom.2.1 hkept hroom, by decide⟩

/-- A list whose last place is taken, and one that has the two last places. -/
def overfullChanges : List Change :=
  [.single (.add (.stmt .block) .none), .single (.add (.expr .ident) (.str "a")),
    .single (.add (.expr .ident) (.str "b")), .single (.add (.stmt .block) .none),
    .single (.setChild ⟨0⟩ (.item 0xFFFFFFFF) ⟨1⟩),
    .single (.setChild ⟨3⟩ (.item 0xFFFFFFFE) ⟨1⟩), .single (.setChild ⟨3⟩ (.item 0xFFFFFFFF) ⟨1⟩)]

/-- Behind the last place a push starts over: the item goes in front, or gets a place in use. -/
theorem pushItem_wraps : ∃ g : Graph, g = overfullChanges.foldl change empty ∧
    Change.allLegal empty overfullChanges ∧ g.has ⟨0⟩ ∧ g.has ⟨3⟩ ∧ g.has ⟨2⟩ ∧
    g.items ⟨0⟩ = [⟨1⟩] ∧ g.nextIndex ⟨0⟩ = 0 ∧ (g.pushItem ⟨0⟩ ⟨2⟩).items ⟨0⟩ = [⟨2⟩, ⟨1⟩] ∧
    ¬ g.Appends ⟨0⟩ ⟨2⟩ ∧
    (g.pushItem ⟨3⟩ ⟨2⟩).outgoing ⟨3⟩ =
      [⟨.item 0xFFFFFFFE, ⟨1⟩⟩, ⟨.item 0xFFFFFFFF, ⟨1⟩⟩, ⟨.item 0xFFFFFFFF, ⟨2⟩⟩] :=
  ⟨_, rfl, by decide, by decide, by decide, by decide, by decide, by decide, by decide,
    fun h => absurd h.hasRoom (by decide), by decide⟩

end Graph

end TypeFlow
