import TypeFlow.Proofs.Lowering.Lowered
/-!
# Counting loops in place

What a firing at a loop over a container leaves in the graph: the nodes of a counting loop, one
behind the other from some number on, joined by the edges that the patch draws among them
(`Planted`). All of them hang below the first, which takes the place of the loop
(`planted_carriedOut`). A loop that stands is not touched by a firing at another one
(`Planted.carriedOut`): the mutations of that firing leave its edges alone (`Mutation.Leaves`).
-/

namespace TypeFlow

/-- A mutation neither takes an edge of a node away nor turns it. -/
def Mutation.Leaves (x : NodeId) (e : Edge) : Mutation → Prop
  | .setChild s r _ | .removeChild s r => ¬(s = x ∧ r = e.role)
  | .clearItems s => ¬(s = x ∧ e.role.isItem)
  | .detach s => s ≠ x
  | .replace old _ => e.node ≠ old
  | _ => True

namespace Lowering

open TypeFlow.Graph Program

variable {S : NodeId → Prop} {K : NodeId → NodeKind} {g h : Graph} {root n x y : NodeId}
  {m : Mutation} {ms : List Mutation} {e : Edge} {p : Patch} {r : Role} {i j base : Nat}

/-! ## Edges that stay -/

theorem mem_outgoing_mutate (hm : Fitting S K m) (hhas : ∀ x, S x → h.has x)
    (hleaves : m.Leaves x e) (he : e ∈ h.outgoing x) : e ∈ (h.mutate m).outgoing x := by
  cases m with
  | setChild s q d =>
    rw [mutate, outgoing_setChild_eraseP (hhas s hm.1)]
    split
    · next hxs =>
      have hne : ¬e.role = q := fun hq => hleaves ⟨hxs.symm, hq.symm⟩
      exact List.mem_append_left _ ((List.mem_eraseP_of_neg (by simpa using hne)).2 he)
    · exact he
  | pushItem s d =>
    rw [mutate, pushItem, outgoing_link (hhas s hm.1)]
    split
    · exact List.mem_append_left _ he
    · exact he
  | clearItems s =>
    rw [mutate, clearItems, outgoing_removeWhere]
    split
    · next hxs =>
      have hitem : ¬e.role.isItem := fun h => hleaves ⟨hxs.symm, h⟩
      exact List.mem_filter.2 ⟨he, by simpa using hitem⟩
    · exact he
  | detach s =>
    rw [mutate, detach, outgoing_removeWhere, if_neg fun hxs => hleaves hxs.symm]
    exact he
  | replace old new =>
    by_cases hne : old = new
    · rwa [mutate, replace, if_pos hne]
    · rw [mutate, outgoing_replace hne]
      refine List.mem_map.2 ⟨e, he, ?_⟩
      rw [turn, if_neg fun h => hleaves h.1]
  | setKind y k => rwa [mutate, outgoing_setKind]
  | add | setPayload | removeChild => exact hm.elim

theorem mem_outgoing_foldl : ∀ {ms : List Mutation} {h : Graph}, (∀ m ∈ ms, Fitting S K m) →
    (∀ x, S x → h.has x) → (∀ m ∈ ms, m.Leaves x e) → e ∈ h.outgoing x →
      e ∈ (ms.foldl Graph.mutate h).outgoing x
  | [], _, _, _, _, he => he
  | m :: ms, h, hms, hhas, hleaves, he => by
    obtain ⟨hm, hms⟩ := List.forall_mem_cons.1 hms
    obtain ⟨hfirst, hrest⟩ := List.forall_mem_cons.1 hleaves
    rw [List.foldl_cons]
    exact mem_outgoing_foldl hms (fun y hy => (has_mutate hm).trans (hhas y hy)) hrest
      (mem_outgoing_mutate hm hhas hfirst he)

/-- An edge that a mutation makes is there in the end, if those behind it leave it. -/
theorem exists_edge_foldl {P : Edge → Prop} {as bs : List Mutation}
    (hms : ∀ q ∈ as ++ m :: bs, Fitting S K q) (hhas : ∀ x, S x → h.has x)
    (hmade : ∀ h' : Graph, (∀ x, S x → h'.has x) → ∃ e ∈ (h'.mutate m).outgoing x, P e)
    (hleaves : ∀ q ∈ bs, ∀ e, P e → q.Leaves x e) :
    ∃ e ∈ ((as ++ m :: bs).foldl Graph.mutate h).outgoing x, P e := by
  obtain ⟨has, hms⟩ := List.forall_mem_append.1 hms
  obtain ⟨hm, hbs⟩ := List.forall_mem_cons.1 hms
  have hhas' : ∀ x, S x → (as.foldl Graph.mutate h).has x := fun x hx =>
    (has_foldl has).trans (hhas x hx)
  obtain ⟨e, he, hp⟩ := hmade _ hhas'
  rw [List.foldl_append, List.foldl_cons]
  exact ⟨e, mem_outgoing_foldl hbs (fun x hx => (has_mutate hm).trans (hhas' x hx))
    (fun q hq => hleaves q hq e hp) he, hp⟩

/-! ## The patch of a loop -/

/-- The patch that puts a counting loop in the place of a loop over a container. -/
def loopPatch (n : NodeId) (var : String) (iter body : NodeId) : Patch :=
  ⟨loopNodes var (iteratorName n) (counterName n),
    loopEdits iter body ++ [.replace n (.new 0), .detach n]⟩

variable {var name : String} {iter body : NodeId}

theorem patch_lowerForIn : (Draft.patch do
      let outer ← countingLoop var iter body (iteratorName n) (counterName n)
      Draft.retire n outer) = loopPatch n var iter body := by
  rw [patch_retire (countingLoop var iter body (iteratorName n) (counterName n))
    fun outer => outer, run_countingLoop]
  rfl

/-- The rule drafts this patch, which is a plan, with the variable of the loop. -/
theorem plan_lowerForIn (hp : Parsed g root) (hc : Composed g root) (hn : g.Below root n)
    (hk : g.kind n = .surface .forIn) : ∃ var iter body, g.name? n = some var ∧
      lowerForIn.effect g n = .ok (some (loopPatch n var iter body)) ∧
        Plan g root [] (loopPatch n var iter body) := by
  obtain ⟨var, iter, body, hname, hiter, hbody, -⟩ := arms_of_forIn (hp.shaped n hn) hk
  have heffect : lowerForIn.effect g n = .ok (some (loopPatch n var iter body)) := by
    simp only [lowerForIn, hname, hiter, hbody, Run.ok_bind, patch_lowerForIn]
    rfl
  obtain ⟨turned, q, hq, hplan⟩ := plans_lowerForIn hp hc hn hk
  obtain rfl : loopPatch n var iter body = q :=
    Option.some.inj (Except.ok.inj (heffect.symm.trans hq))
  refine ⟨var, iter, body, requireName_eq_ok.1 hname, heffect, ?_⟩
  -- no kind is set, so that nothing is turned
  obtain rfl : turned = [] := List.eq_nil_iff_forall_not_mem.2 fun x hx => by
    obtain ⟨-, e, -, hset, -⟩ := hplan.turns x hx
    simp [loopPatch, loopEdits] at hset
  exact hplan

/-- An edit that only draws an edge from a new node. -/
def isDraw : Edit → Bool
  | .setChild (.new _) _ _ | .pushItem (.new _) _ => true
  | _ => false

theorem isDraw_loopEdits : ∀ e ∈ loopEdits iter body, isDraw e :=
  List.all_eq_true.1 (show (loopEdits iter body).all isDraw = true from rfl)

theorem ne_new_of_has (hx : g.has x) (i : Nat) : x ≠ (Handle.new i).at g := by
  rintro rfl
  cases hx.symm.trans has_new

/-- An edit that draws from a new node leaves the edges of the nodes from before. -/
theorem leaves_of_isDraw {d : Edit} (hd : isDraw d) (hx : g.has x) : (d.at g).Leaves x e := by
  unfold isDraw at hd
  split at hd
  · exact fun h => ne_new_of_has hx _ h.1.symm
  · trivial
  · cases hd

/-- The child that an edit sets. -/
def slot? : Edit → Option (Handle × Role)
  | .setChild s r _ => some (s, r)
  | _ => none

/-- No child is set twice. -/
theorem nodup_slots : ((loopEdits iter body).filterMap slot?).Nodup := by
  have hslots : (loopEdits iter body).filterMap slot? =
      [(.new 2, .target), (.new 2, .value), (.new 5, .target), (.new 5, .value), (.new 7, .left),
        (.new 7, .right), (.new 10, .operand), (.new 6, .left), (.new 6, .right), (.new 13, .left),
        (.new 13, .right), (.new 16, .target), (.new 16, .value), (.new 17, .value),
        (.new 17, .key), (.new 21, .target), (.new 21, .value), (.new 23, .cond),
        (.new 23, .body)] := rfl
  rw [hslots]
  decide

/-! ## Edges of the lowered loop -/

section Edges

variable (hplan : Plan g root [] (loopPatch n var iter body)) (hc : Composed g root)
  (hroot : g.has root)
include hplan hc hroot

/-- An edge between nodes from before stays, if neither end is the loop. -/
theorem mem_outgoing_carriedOut (hx : g.has x) (hxn : x ≠ n) (he : e ∈ g.outgoing x)
    (hen : e.node ≠ n) : e ∈ (carriedOut g (loopPatch n var iter body)).outgoing x := by
  refine mem_outgoing_foldl hplan.fitting_map (fun y hy => hy.has hc hroot) (fun m hm => ?_)
    (by rwa [outgoing_addAll])
  obtain ⟨d, hd, rfl⟩ := List.mem_map.1 hm
  rcases List.mem_append.1 hd with hd | hd
  · exact leaves_of_isDraw (isDraw_loopEdits d hd) hx
  · rcases List.mem_pair.1 hd with rfl | rfl
    · exact hen
    · exact hxn.symm

/-- An edge that an edit draws is there in the end. -/
theorem exists_edge_carriedOut (hn : g.has n) {P : Edge → Prop} {d : Edit}
    (hd : d ∈ loopEdits iter body)
    (hmade : ∀ h : Graph, h.has ⟨g.size + i⟩ → ∃ e ∈ (h.mutate (d.at g)).outgoing ⟨g.size + i⟩, P e)
    (hi : i < 24) (hnode : ∀ e, P e → e.node ≠ n)
    (hslot : ∀ e, P e → slot? d = some (.new i, e.role) ∨ e.role.isItem) :
    ∃ e ∈ (carriedOut g (loopPatch n var iter body)).outgoing ⟨g.size + i⟩, P e := by
  obtain ⟨as, bs, hsplit⟩ := List.append_of_mem hd
  have hms : (loopPatch n var iter body).edits.map (Edit.at g) = as.map (Edit.at g) ++
      d.at g :: (bs ++ [Edit.replace n (.new 0), .detach n]).map (Edit.at g) := by
    simp [loopPatch, hsplit]
  have hnodup : ∀ q, slot? d = some q → ∀ d' ∈ bs, slot? d' ≠ some q := by
    intro q hq d' hd' hq'
    have hslots : ((loopEdits iter body).filterMap slot?).Nodup := nodup_slots
    rw [hsplit, List.filterMap_append, List.filterMap_cons_some hq] at hslots
    exact (List.nodup_cons.1 (List.nodup_append.1 hslots).2.1).1
      (List.mem_filterMap.2 ⟨d', hd', hq'⟩)
  have hfitting := hplan.fitting_map
  have hreach : Reach g root (loopPatch n var iter body) ⟨g.size + i⟩ := reach_new (i := i) hi
  rw [carriedOut, hms]
  rw [hms] at hfitting
  refine exists_edge_foldl hfitting (fun y hy => hy.has hc hroot)
    (fun h' hhas => hmade h' (hhas _ hreach)) fun m hm e he => ?_
  obtain ⟨d', hd', rfl⟩ := List.mem_map.1 hm
  rcases List.mem_append.1 hd' with hd' | hd'
  · have hmem : d' ∈ loopEdits iter body := by simp [hsplit, hd']
    have hdraw := isDraw_loopEdits d' hmem
    unfold isDraw at hdraw
    split at hdraw
    · next j q b _ =>
      rintro ⟨hsrc, hrole⟩
      have hji : j = i := by simpa [Handle.at] using hsrc
      rcases hslot e he with hslot | hitem
      · exact hnodup _ hslot _ hd' (by rw [slot?, hji, hrole])
      · have hfits := hplan.fitting _ (List.mem_append_left _ hmem)
        rw [Edit.at, Fitting, hrole, hitem] at hfits
        cases hfits.2.2.1
    · trivial
    · cases hdraw
  · rcases List.mem_pair.1 hd' with rfl | rfl
    · exact hnode e he
    · exact ne_new_of_has hn i

theorem mem_outgoing_of_setChild (hn : g.has n) {b : Handle} (hi : i < 24)
    (hd : .setChild (.new i) r b ∈ loopEdits iter body) (hb : b.at g ≠ n) :
    ⟨r, b.at g⟩ ∈ (carriedOut g (loopPatch n var iter body)).outgoing ⟨g.size + i⟩ := by
  obtain ⟨e, he, rfl⟩ := exists_edge_carriedOut (P := (· = ⟨r, b.at g⟩)) hplan hc hroot hn hd
    (fun h hhas => ⟨_, by
      rw [Edit.at, Handle.at, mutate, outgoing_setChild_eraseP hhas, if_pos rfl]
      simp, rfl⟩)
    hi (fun e he => he ▸ hb) fun e he => Or.inl (by rw [slot?, he])
  exact he

theorem mem_items_of_pushItem (hn : g.has n) {b : Handle} (hi : i < 24)
    (hd : .pushItem (.new i) b ∈ loopEdits iter body) (hb : b.at g ≠ n) :
    b.at g ∈ (carriedOut g (loopPatch n var iter body)).items ⟨g.size + i⟩ := by
  obtain ⟨e, he, hitem, hnode⟩ := exists_edge_carriedOut
    (P := fun e => e.role.isItem ∧ e.node = b.at g) hplan hc hroot hn hd
    (fun h hhas => ⟨⟨.item (h.nextIndex ⟨g.size + i⟩), b.at g⟩, by
      rw [Edit.at, Handle.at, mutate, Graph.pushItem, outgoing_link hhas, if_pos rfl]
      simp, rfl, rfl⟩)
    hi (fun e he => he.2 ▸ hb) fun e he => Or.inr he.1
  exact mem_items.2 ⟨e.role, hitem, by rwa [← hnode]⟩

/-- What led to the loop leads to the block in its place. -/
theorem mem_outgoing_of_loop (hn : g.has n) (hx : g.has x) (hxn : x ≠ n)
    (he : ⟨r, n⟩ ∈ g.outgoing x) :
    ⟨r, ⟨g.size⟩⟩ ∈ (carriedOut g (loopPatch n var iter body)).outgoing x := by
  obtain ⟨hedits, -⟩ := Mutation.roomy_append.1 (List.map_append ▸ hplan.roomy)
  have hfitting : ∀ m ∈ (loopEdits iter body).map (Edit.at g),
      Fitting (Reach g root (loopPatch n var iter body))
        (finalKind g [] (loopPatch n var iter body)) m := fun m hm =>
    hplan.fitting_map m (List.map_append ▸ List.mem_append_left _ hm)
  obtain ⟨f, hw⟩ := (Plan.wired_start hc hroot).foldl hfitting hedits
  have hkeep : ⟨r, n⟩ ∈ (((loopEdits iter body).map (Edit.at g)).foldl Graph.mutate
      (g.addAll (loopPatch n var iter body).nodes)).outgoing x := by
    refine mem_outgoing_foldl hfitting (fun y hy => hy.has hc hroot) (fun m hm => ?_)
      (by rwa [outgoing_addAll])
    obtain ⟨d, hd, rfl⟩ := List.mem_map.1 hm
    exact leaves_of_isDraw (isDraw_loopEdits d hd) hx
  have hms : (loopPatch n var iter body).edits.map (Edit.at g) =
      (loopEdits iter body).map (Edit.at g) ++
        [Mutation.replace n ((Handle.new 0).at g), .detach n] := by
    rw [loopPatch, List.map_append]
    rfl
  rw [carriedOut, hms, List.foldl_append]
  generalize List.foldl Graph.mutate _ ((loopEdits iter body).map _) = h at hw hkeep ⊢
  rw [List.foldl_cons, List.foldl_cons, List.foldl_nil, mutate, mutate, detach,
    outgoing_removeWhere, if_neg hxn,
    outgoing_replace_redirect hw.kept.balanced (ne_new_of_has hn 0),
    if_neg (ne_new_of_has hx 0)]
  exact List.mem_map.2 ⟨_, hkeep, if_pos rfl⟩

end Edges

/-! ## Loops that stand -/

/-- An edit is drawn among the nodes that come from a number on, if it joins two of them. -/
def IsDrawn (g : Graph) (base : Nat) : Edit → Prop
  | .setChild (.new i) r (.new j) => g.child? ⟨base + i⟩ r = some ⟨base + j⟩
  | .pushItem (.new i) (.new j) => ⟨base + j⟩ ∈ g.items ⟨base + i⟩
  | _ => True

/-- The counting loop of a loop with a variable stands at the nodes from a number on. -/
structure Planted (g : Graph) (n : NodeId) (var : String) (base : Nat) : Prop where
  node : ∀ i m, (loopNodes var (iteratorName n) (counterName n))[i]? = some m →
    g.kind ⟨base + i⟩ = m.1 ∧ g.payload ⟨base + i⟩ = m.2
  edges : ∃ iter body, ∀ e ∈ loopEdits iter body, IsDrawn g base e

/-- The edits of a loop are drawn, if those are that join two of its nodes. -/
theorem isDrawn_of_joins
    (hset : ∀ i < 24, ∀ j < 24, ∀ r, r ≠ .ref → r ≠ .locals →
      .setChild (.new i) r (.new j) ∈ loopEdits iter body →
        g.child? ⟨base + i⟩ r = some ⟨base + j⟩)
    (hpush : ∀ i < 24, ∀ j < 24, .pushItem (.new i) (.new j) ∈ loopEdits iter body →
      ⟨base + j⟩ ∈ g.items ⟨base + i⟩) : ∀ e ∈ loopEdits iter body, IsDrawn g base e := by
  intro e he
  rcases cases_loopEdits "" iter body "" "" he with hfits | rfl | rfl
  · unfold fitsAmong at hfits
    split at hfits
    · split at hfits
      · next hi hj =>
        simp only [Bool.and_eq_true, Bool.not_eq_true', decide_eq_true_eq] at hfits
        obtain ⟨⟨⟨-, href⟩, hlocals⟩, -⟩ := hfits
        exact hset _ (List.getElem?_eq_some_iff.1 hi).1 _ (List.getElem?_eq_some_iff.1 hj).1 _
          href hlocals he
      · cases hfits
    · split at hfits
      · next hi hj =>
        exact hpush _ (List.getElem?_eq_some_iff.1 hi).1 _ (List.getElem?_eq_some_iff.1 hj).1 he
      · cases hfits
    · cases hfits
  · trivial
  · trivial

/-- Whether edits lead down to a new node from the first, in at most so many steps. -/
def leadsTo (edits : List Edit) : Nat → Nat → Bool
  | _, 0 => true
  | 0, _ => false
  | steps + 1, j => edits.any fun
    | .setChild (.new i) r (.new k) => k = j && r.isStructural && leadsTo edits steps i
    | .pushItem (.new i) (.new k) => k = j && leadsTo edits steps i
    | _ => false

theorem leadsTo_loopEdits (hi : i < 24) : leadsTo (loopEdits iter body) 5 i :=
  List.all_eq_true.1 (show (List.range 24).all (leadsTo (loopEdits iter body) 5) = true from rfl) i
    (List.mem_range.2 hi)

theorem below_of_leadsTo {edits : List Edit} (hedits : ∀ e ∈ edits, IsDrawn g base e) :
    ∀ {steps j : Nat}, leadsTo edits steps j → g.Below ⟨base⟩ ⟨base + j⟩
  | _, 0, _ => .root
  | steps + 1, j + 1, h => by
    obtain ⟨e, he, h⟩ := List.any_eq_true.1 h
    have hdrawn := hedits e he
    split at h
    · simp only [Bool.and_eq_true, decide_eq_true_eq] at h
      obtain ⟨⟨rfl, hr⟩, h⟩ := h
      exact (below_of_leadsTo hedits h).of_child? hdrawn hr
    · simp only [Bool.and_eq_true, decide_eq_true_eq] at h
      obtain ⟨rfl, h⟩ := h
      exact (below_of_leadsTo hedits h).of_mem_items hdrawn
    · cases h

namespace Planted

variable (hn : Planted g n var base)
include hn

/-- All of a loop that stands hangs below its first node. -/
theorem below (hi : i < 24) : g.Below ⟨base⟩ ⟨base + i⟩ := by
  obtain ⟨iter, body, hedges⟩ := hn.edges
  exact below_of_leadsTo hedges (leadsTo_loopEdits hi)

/-- What is so of the kinds of all nodes of a counting loop is so where it stands. -/
theorem kind_of_all {P : NodeKind → Bool}
    (hall : (loopNodes var (iteratorName n) (counterName n)).all fun m => P m.1) (hi : i < 24) :
    P (g.kind ⟨base + i⟩) := by
  have hlt : i < (loopNodes var (iteratorName n) (counterName n)).length := hi
  rw [(hn.node i _ (List.getElem?_eq_getElem hlt)).1]
  exact List.all_eq_true.1 hall _ (List.getElem_mem hlt)

theorem not_isSurface (hi : i < 24) : (g.kind ⟨base + i⟩).isSurface = false := by
  simpa using hn.kind_of_all (P := fun k => !k.isSurface) rfl hi

/-- A loop stands where its nodes and the edges between them are. -/
theorem mono (hnode : ∀ i < 24, h.kind ⟨base + i⟩ = g.kind ⟨base + i⟩ ∧
      h.payload ⟨base + i⟩ = g.payload ⟨base + i⟩)
    (hchild : ∀ i < 24, ∀ j < 24, ∀ r, r ≠ .ref → r ≠ .locals →
      g.child? ⟨base + i⟩ r = some ⟨base + j⟩ → h.child? ⟨base + i⟩ r = some ⟨base + j⟩)
    (hitem : ∀ i < 24, ∀ j < 24, ⟨base + j⟩ ∈ g.items ⟨base + i⟩ →
      ⟨base + j⟩ ∈ h.items ⟨base + i⟩) : Planted h n var base where
  node i m hm := by
    obtain ⟨hkind, hpayload⟩ := hnode i (List.getElem?_eq_some_iff.1 hm).1
    rw [hkind, hpayload]
    exact hn.node i m hm
  edges := by
    obtain ⟨iter, body, hedges⟩ := hn.edges
    refine ⟨iter, body, isDrawn_of_joins (fun i hi j hj r href hlocals he => ?_)
      fun i hi j hj he => ?_⟩
    · exact hchild i hi j hj r href hlocals (hedges _ he)
    · exact hitem i hi j hj (hedges _ he)

end Planted

/-! ## Planting -/

theorem kind_of_takes_block {k : NodeKind} (h : takes k r (.stmt .block)) (hk : k.isSurface) :
    k = .surface .forIn := by
  obtain ⟨f, rfl⟩ := exists_surface hk
  cases f <;> first | rfl | (cases r <;> cases h)

section Plant

variable (hplan : Plan g root [] (loopPatch n var iter body)) (hc : Composed g root)
  (hroot : g.has root)
include hplan hc hroot

theorem kept_carriedOut : (carriedOut g (loopPatch n var iter body)).WellKept := by
  obtain ⟨f, hw⟩ := hplan.wired_carriedOut hc hroot
  exact hw.kept

/-- A firing at a loop plants a counting loop behind all nodes. -/
theorem planted_carriedOut (hn : g.has n) :
    Planted (carriedOut g (loopPatch n var iter body)) n var g.size where
  node i m hm := by
    obtain ⟨hi, rfl⟩ := List.getElem?_eq_some_iff.1 hm
    have hi' : i < (loopPatch n var iter body).nodes.length := hi
    rw [hplan.kind_carriedOut hc hroot (Or.inr ⟨has_new, by simpa [has_addAll] using hi'⟩),
      hplan.payload_carriedOut, finalKind_new hi' hplan.has_turned, payload_addAll_new hi']
    exact ⟨rfl, rfl⟩
  edges := by
    refine ⟨iter, body, isDrawn_of_joins (fun i hi j _ r _ _ he => ?_) fun i hi j _ he => ?_⟩
    · exact (child?_eq_some (kept_carriedOut hplan hc hroot)).2
        (mem_outgoing_of_setChild hplan hc hroot hn hi he (ne_new_of_has hn j).symm)
    · exact mem_items_of_pushItem hplan hc hroot hn hi he (ne_new_of_has hn j).symm

/-- A loop that stands is left alone by a firing at another one. -/
theorem Planted.carriedOut {m : NodeId} {name : String} (hm : Planted g m name base)
    (hbelow : g.Below root ⟨base⟩) (hk : g.kind n = .surface .forIn) :
    Planted (carriedOut g (loopPatch n var iter body)) m name base := by
  have hold : ∀ i < 24, g.Below root ⟨base + i⟩ ∧ g.has ⟨base + i⟩ ∧ (⟨base + i⟩ : NodeId) ≠ n := by
    intro i hi
    have hbelow := hbelow.trans (hm.below hi)
    refine ⟨hbelow, has_of_below hc hroot hbelow, fun hin => ?_⟩
    have hsurface := hm.not_isSurface hi
    rw [hin, hk] at hsurface
    cases hsurface
  refine hm.mono (fun i hi => ?_) (fun i hi j hj r _ _ hr => ?_) fun i hi j hj hitem => ?_
  · obtain ⟨hbelow, hhas, -⟩ := hold i hi
    rw [hplan.kind_carriedOut hc hroot (Or.inl hbelow), finalKind_of_not_mem hhas List.not_mem_nil,
      hplan.payload_carriedOut, payload_addAll hhas]
    exact ⟨rfl, rfl⟩
  · obtain ⟨-, hhas, hne⟩ := hold i hi
    exact (child?_eq_some (kept_carriedOut hplan hc hroot)).2
      (mem_outgoing_carriedOut hplan hc hroot hhas hne (mem_of_child? hr) (hold j hj).2.2)
  · obtain ⟨-, hhas, hne⟩ := hold i hi
    obtain ⟨r, hr, he⟩ := mem_items.1 hitem
    exact mem_items.2
      ⟨r, hr, mem_outgoing_carriedOut hplan hc hroot hhas hne he (hold j hj).2.2⟩

/-- The loop that is planted is in reach. -/
theorem below_carriedOut (hp : Parsed g root) (hn : g.Below root n)
    (hk : g.kind n = .surface .forIn)
    (hlowers : Lowers g root n (carriedOut g (loopPatch n var iter body))) :
    (carriedOut g (loopPatch n var iter body)).Below root ⟨g.size⟩ := by
  have hne : n ≠ root := by
    rintro rfl
    cases hk.symm.trans hp.program
  obtain ⟨y, hy, hparent⟩ := hp.exists_parent hn hne
  have hyn : y ≠ n := by
    rintro rfl
    exact not_mem_parents_self hp hn hparent
  obtain ⟨r, hr, he⟩ := (mem_parents_iff hc.kept).1 hparent
  have hstays : (carriedOut g (loopPatch n var iter body)).Below root y := by
    by_cases hsurface : (g.kind y).isSurface
    · -- only another loop holds what counts as a block
      have htakes := hc.takes y hy ⟨r, n⟩ (mem_arms.2 ⟨he, hr⟩) (by rw [hk]; rfl)
      rw [hk] at htakes
      have htask : task? g y = some .forIn :=
        (task?_eq_some_form rfl).2 (kind_of_takes_block htakes hsurface)
      exact ((hlowers.tasks y .forIn).2 ⟨hy, htask, hyn⟩).1
    · exact (hlowers.stays y hy (by simpa using hsurface)).1
  have hblock := mem_outgoing_of_loop hplan hc hroot (hp.has_below hn) (hp.has_below hy) hyn he
  exact hstays.child hblock hr

end Plant

end Lowering

end TypeFlow
