import TypeFlow.Proofs.Lowering.Fitting
/-!
# Patches that fit

A patch is a `Plan` for a composed program if its edits fit, its lists have room, and its nodes get
the parts and the names that they must have; segments of dotted chains may change their kinds on the
way. Such a patch can be applied, and makes a composed program again (`Plan.composed`).
-/

namespace TypeFlow

namespace Graph

variable {g : Graph} {x : NodeId} {nodes : List (NodeKind × Payload)} {p : Patch} {i : Nat}

/-! ## Graphs with the nodes of a patch -/

theorem node_addAll : (g.addAll nodes).node x = if g.has x then g.node x else
    ((nodes[x.index - g.size]?).map fun n => (⟨n.1, n.2, [], []⟩ : Node)).getD default := by
  have hlist : ∀ (nodes : List (NodeKind × Payload)) (g : Graph), (g.addAll nodes).nodes.toList =
      g.nodes.toList ++ nodes.map fun n => (⟨n.1, n.2, [], []⟩ : Node) := by
    intro nodes
    induction nodes with
    | nil => simp [addAll]
    | cons n nodes ih =>
      intro g
      rw [addAll, List.foldl_cons, ← addAll, ih]
      simp [add]
  rw [node, Array.getD_eq_getD_getElem?, ← Array.getElem?_toList, hlist, List.getElem?_append,
    Array.length_toList]
  by_cases hx : x.index < g.nodes.size
  · have hhas : g.has x := decide_eq_true hx
    rw [if_pos hx, if_pos hhas, node, Array.getD_eq_getD_getElem?, Array.getElem?_toList]
  · have hhas : ¬g.has x := fun h => hx (of_decide_eq_true h)
    rw [if_neg hx, if_neg hhas, List.getElem?_map]
    rfl

theorem has_addAll : (g.addAll nodes).has x = decide (x.index < g.size + nodes.length) := by
  rw [has, size_addAll]

theorem kind_addAll (hx : g.has x) : (g.addAll nodes).kind x = g.kind x := by
  rw [kind, node_addAll, if_pos hx, kind]

theorem payload_addAll (hx : g.has x) : (g.addAll nodes).payload x = g.payload x := by
  rw [payload, node_addAll, if_pos hx, payload]

theorem has_new : g.has ⟨g.size + i⟩ = false := by simp [has]

theorem kind_addAll_new (hi : i < nodes.length) :
    (g.addAll nodes).kind ⟨g.size + i⟩ = nodes[i].1 := by
  rw [kind, node_addAll, if_neg (by simp [has_new])]
  simp [hi]

theorem payload_addAll_new (hi : i < nodes.length) :
    (g.addAll nodes).payload ⟨g.size + i⟩ = nodes[i].2 := by
  rw [payload, node_addAll, if_neg (by simp [has_new])]
  simp [hi]

theorem outgoing_addAll : (g.addAll nodes).outgoing x = g.outgoing x := by
  induction nodes generalizing g with
  | nil => rfl
  | cons n nodes ih => rw [addAll, List.foldl_cons, ← addAll, ih, outgoing_add]

/-- A node that only the patch has is one of its nodes. -/
theorem exists_new (hx : g.has x = false) (hx' : (g.addAll nodes).has x) :
    ∃ i, ∃ _ : i < nodes.length, x = ⟨g.size + i⟩ := by
  rcases x with ⟨index⟩
  have hlow : g.size ≤ index := by simpa [has] using hx
  have hhigh : index < g.size + nodes.length := by simpa [has_addAll] using hx'
  exact ⟨index - g.size, by omega, by simp; omega⟩

end Graph

namespace Lowering

open TypeFlow.Graph Program

variable {g : Graph} {root x n : NodeId} {turned : List NodeId} {p : Patch} {r : Role}

/-! ## Segments -/

/-- A node is of the kind that it was of, or of that of a segment behind a dot. -/
def Turns (k k' : NodeKind) : Prop := k' = k ∨ ∃ e, afterDot? k = some e ∧ k' = .expr e

theorem kinds_of_afterDot? {k : NodeKind} {e : ExprKind} (h : afterDot? k = some e) :
    k = .expr .ident ∧ e = .fieldGet ∨ k = .expr .call ∧ e = .methodCall := by
  unfold afterDot? at h
  split at h
  · exact Or.inl ⟨rfl, (Option.some.inj h).symm⟩
  · exact Or.inr ⟨rfl, (Option.some.inj h).symm⟩
  · cases h

theorem Turns.isPart_eq {k k' : NodeKind} (h : Turns k k') : isPart k' = isPart k := by
  rcases h with rfl | ⟨e, he, rfl⟩
  · rfl
  · rcases kinds_of_afterDot? he with ⟨rfl, rfl⟩ | ⟨rfl, rfl⟩ <;> rfl

/-- A segment stands behind a dot where it stood, and holds what it held. -/
theorem Turns.takes {k k' m m' : NodeKind} (hk : Turns k k') (hm : Turns m m')
    (h : takes k r (stead m)) : takes k' r (stead m') := by
  have htarget : Program.takes k r (stead m') := by
    rcases hm with rfl | ⟨e, he, rfl⟩
    · exact h
    · rcases kinds_of_afterDot? he with ⟨rfl, rfl⟩ | ⟨rfl, rfl⟩ <;> exact takes_of_value h rfl rfl
  rcases hk with rfl | ⟨e, he, rfl⟩
  · exact htarget
  · rcases kinds_of_afterDot? he with ⟨rfl, rfl⟩ | ⟨rfl, rfl⟩
    · cases r <;> cases htarget
    · cases r <;> first | exact htarget | cases htarget

theorem Turns.bearsName {k k' : NodeKind} (h : Turns k k') (hk' : bearsName k') : bearsName k := by
  rcases h with rfl | ⟨e, he, rfl⟩
  · exact hk'
  · rcases kinds_of_afterDot? he with ⟨rfl, rfl⟩ | ⟨rfl, rfl⟩ <;> rfl

theorem Turns.ne_objectInit {k k' : NodeKind} (h : Turns k k') (hk : k ≠ .expr .objectInit) :
    k' ≠ .expr .objectInit := by
  rcases h with rfl | ⟨e, he, rfl⟩
  · exact hk
  · rcases kinds_of_afterDot? he with ⟨rfl, rfl⟩ | ⟨rfl, rfl⟩ <;> nofun

/-! ## Plans -/

/-- The nodes of the program and those that a patch makes. -/
def Reach (g : Graph) (root : NodeId) (p : Patch) (x : NodeId) : Prop :=
  g.Below root x ∨ (g.has x = false ∧ (g.addAll p.nodes).has x)

/-- The kinds that nodes have when a patch is applied that turns some segments. -/
def finalKind (g : Graph) (turned : List NodeId) (p : Patch) (x : NodeId) : NodeKind :=
  if x ∈ turned then ((afterDot? (g.kind x)).map NodeKind.expr).getD (g.kind x)
  else (g.addAll p.nodes).kind x

/-- Nothing is known of the places in lists that were there before. -/
def places (g : Graph) (x : NodeId) : Nat := if g.has x then 2 ^ 32 else 0

/-- A patch for a program that leaves everything in place. -/
structure Plan (g : Graph) (root : NodeId) (turned : List NodeId) (p : Patch) : Prop where
  fitting : ∀ e ∈ p.edits, Fitting (Reach g root p) (finalKind g turned p) (e.at g)
  roomy : Mutation.Roomy (places g) (p.edits.map (Edit.at g))
  named : ∀ node ∈ p.nodes, bearsName node.1 → node.2.name?.isSome
  calls : ∀ node ∈ p.nodes, node.1 ≠ .expr .objectInit
  complete : ∀ i (hi : i < p.nodes.length), ∀ r ∈ parts p.nodes[i].1,
    ∃ b, .setChild (.new i) r b ∈ p.edits
  turns : ∀ x ∈ turned, g.Below root x ∧ ∃ e, afterDot? (g.kind x) = some e ∧
    .setKind x (.expr e) ∈ p.edits ∧ ∃ b, .setChild x .receiver b ∈ p.edits

theorem finalKind_new {i : Nat} (hi : i < p.nodes.length) (hturned : ∀ x ∈ turned, g.has x) :
    finalKind g turned p ⟨g.size + i⟩ = p.nodes[i].1 := by
  have hnot : (⟨g.size + i⟩ : NodeId) ∉ turned := fun h => by
    have hhas := hturned _ h
    rw [has_new] at hhas
    cases hhas
  rw [finalKind, if_neg hnot, kind_addAll_new hi]

theorem finalKind_of_not_mem (hx : g.has x) (hn : x ∉ turned) :
    finalKind g turned p x = g.kind x := by
  rw [finalKind, if_neg hn, kind_addAll hx]

theorem turns_finalKind (hx : g.has x) : Turns (g.kind x) (finalKind g turned p x) := by
  unfold finalKind
  split
  · cases hafter : afterDot? (g.kind x) with
    | none => exact Or.inl rfl
    | some e => exact Or.inr ⟨e, hafter, rfl⟩
  · exact Or.inl (kind_addAll hx)

/-- What is reached is a node of the program, or one of the nodes of the patch. -/
theorem Reach.old_or_new (hx : Reach g root p x) :
    g.Below root x ∨ ∃ i, ∃ _ : i < p.nodes.length, x = ⟨g.size + i⟩ :=
  hx.imp_right fun ⟨hnew, hmade⟩ => exists_new hnew hmade

theorem has_of_below (hc : Composed g root) (hroot : g.has root) (hx : g.Below root x) :
    g.has x := by
  cases hx with
  | root => exact hroot
  | child _ he _ => exact hc.kept.has_target he

theorem Reach.has (hc : Composed g root) (hroot : g.has root) (hx : Reach g root p x) :
    (g.addAll p.nodes).has x := by
  rcases hx with hx | ⟨-, hx⟩
  · have hlt : x.index < g.size := of_decide_eq_true (has_of_below hc hroot hx)
    rw [has_addAll, decide_eq_true_iff]
    omega
  · exact hx

/-- The graph that a patch makes of one. -/
def carriedOut (g : Graph) (p : Patch) : Graph :=
  (p.edits.map (Edit.at g)).foldl Graph.mutate (g.addAll p.nodes)

namespace Plan

section Facts

variable (hp : Plan g root turned p)
include hp

theorem has_turned : ∀ x ∈ turned, g.has x := by
  intro x hx
  obtain ⟨-, e, he, -⟩ := hp.turns x hx
  refine has_of_kind rfl fun hdefault => ?_
  rw [hdefault] at he
  cases he

theorem fitting_map : ∀ m ∈ p.edits.map (Edit.at g),
    Fitting (Reach g root p) (finalKind g turned p) m := by
  intro m hm
  obtain ⟨e, he, rfl⟩ := List.mem_map.1 hm
  exact hp.fitting e he

end Facts

variable (hc : Composed g root) (hroot : g.has root)
include hc hroot

/-- The graph with the nodes of the patch is wired. -/
theorem wired_start : Wired (Reach g root p) (finalKind g turned p) (places g)
    (g.addAll p.nodes) where
  kept := wellKept_addAll hc.kept p.nodes
  has x hx := hx.has hc hroot
  plain n e he := by
    rw [outgoing_addAll] at he
    exact hc.plain n e he
  edges x hx e he := by
    have he : e ∈ g.arms x := by rwa [arms_congr outgoing_addAll] at he
    have hhas : g.has x := has_of_mem_arms he
    rcases hx with hx | ⟨hnew, -⟩
    · obtain ⟨hout, hstr⟩ := mem_arms.1 he
      have htarget : g.has e.node := hc.kept.has_target hout
      refine ⟨Or.inl (hx.child hout hstr), fun hpart => ?_⟩
      rw [(turns_finalKind htarget).isPart_eq] at hpart
      exact (turns_finalKind hhas).takes (turns_finalKind htarget) (hc.takes x hx e he hpart)
    · rw [hnew] at hhas
      cases hhas
  room x e he i hi := by
    rw [outgoing_addAll] at he
    rw [places, if_pos (hc.kept.has_source he)]
    exact i.toNat_lt

variable (hp : Plan g root turned p)
include hp

/-- A plan can be carried out. -/
theorem run_commit : (Graph.commit p).run g = (.ok (), carriedOut g p) := by
  have hnamed : ∀ e ∈ p.edits, ∀ n ∈ (e.at g).names, n.index < g.size + p.nodes.length := by
    intro e he n hn
    have hhas := (has_names (hp.fitting e he) n hn).has hc hroot
    rwa [has_addAll, decide_eq_true_iff] at hhas
  exact Run.run_bind_of_ok (run_apply_of_named hnamed)

theorem wired_carriedOut :
    ∃ f, Wired (Reach g root p) (finalKind g turned p) f (carriedOut g p) :=
  (wired_start hc hroot).foldl hp.fitting_map hp.roomy

theorem reach_of_below (hn : (carriedOut g p).Below root n) : Reach g root p n := by
  obtain ⟨f, hw⟩ := wired_carriedOut hc hroot hp
  induction hn with
  | root => exact Or.inl .root
  | child _ he hstr ih => exact (hw.edges _ ih _ (mem_arms.2 ⟨he, hstr⟩)).1

omit hc hroot in
theorem payload_carriedOut : (carriedOut g p).payload x = (g.addAll p.nodes).payload x := by
  rw [carriedOut, payload_foldl hp.fitting_map]

theorem kind_carriedOut (hx : Reach g root p x) :
    (carriedOut g p).kind x = finalKind g turned p x := by
  refine kind_foldl hx hp.fitting_map (fun y hy => hy.has hc hroot) ?_
  by_cases hxt : x ∈ turned
  · obtain ⟨-, e, he, hset, -⟩ := hp.turns x hxt
    refine Or.inr (List.mem_map.2 ⟨_, hset, ?_⟩)
    rw [finalKind, if_pos hxt, he]
    rfl
  · exact Or.inl (by rw [finalKind, if_neg hxt])

/-- Nodes that the patch makes or turns are given their parts, and the others keep theirs. -/
theorem hasChild_carriedOut (hx : Reach g root p x) (hr : r ∈ parts (finalKind g turned p x)) :
    (carriedOut g p).hasChild x r := by
  refine hasChild_foldl hx hr hp.fitting_map (fun y hy => hy.has hc hroot) ?_
  have hset : ∀ {a b : Handle}, a.at g = x → .setChild a r b ∈ p.edits →
      ∃ d, .setChild x r d ∈ p.edits.map (Edit.at g) := fun ha hb =>
    ⟨_, List.mem_map.2 ⟨_, hb, by rw [Edit.at, ha]⟩⟩
  rcases hx.old_or_new with hx | ⟨i, hi, rfl⟩
  · by_cases hxt : x ∈ turned
    · obtain ⟨-, e, he, -, b, hb⟩ := hp.turns x hxt
      rw [finalKind, if_pos hxt, he] at hr
      obtain rfl : r = .receiver := by
        rcases kinds_of_afterDot? he with ⟨-, rfl⟩ | ⟨-, rfl⟩ <;>
          exact List.mem_singleton.1 hr
      exact Or.inr (hset rfl hb)
    · rw [finalKind_of_not_mem (has_of_below hc hroot hx) hxt] at hr
      obtain ⟨e, he, hrole⟩ := hasChild_iff.1 (hc.complete x hx r hr)
      exact Or.inl (hasChild_iff.2 ⟨e, by rwa [outgoing_addAll], hrole⟩)
  · rw [finalKind_new hi hp.has_turned] at hr
    obtain ⟨b, hb⟩ := hp.complete i hi r hr
    exact Or.inr (hset rfl hb)

/-- A plan makes a composed program of one. -/
theorem composed : ∃ g', (Graph.commit p).run g = (.ok (), g') ∧ Composed g' root := by
  refine ⟨_, run_commit hc hroot hp, ?_⟩
  obtain ⟨f, hw⟩ := wired_carriedOut hc hroot hp
  have hreach : ∀ n, (carriedOut g p).Below root n → Reach g root p n := fun n =>
    reach_of_below hc hroot hp
  have hkind : ∀ x, Reach g root p x → (carriedOut g p).kind x = finalKind g turned p x :=
    fun x => kind_carriedOut hc hroot hp
  have hold : ∀ {x}, g.Below root x → Turns (g.kind x) (finalKind g turned p x) := fun hx =>
    turns_finalKind (has_of_below hc hroot hx)
  refine ⟨hw.kept, hw.plain, fun n hn e he hpart => ?_, fun n hn r hr => ?_, fun n hn hname => ?_,
    fun n hn => ?_⟩
  · obtain ⟨htarget, hsuits⟩ := hw.edges n (hreach n hn) e he
    rw [hkind _ htarget] at hpart ⊢
    rw [hkind n (hreach n hn)]
    exact hsuits hpart
  · rw [hkind n (hreach n hn)] at hr
    exact hasChild_carriedOut hc hroot hp (hreach n hn) hr
  · rw [hkind n (hreach n hn)] at hname
    rw [name?, payload_carriedOut hp]
    rcases (hreach n hn).old_or_new with hx | ⟨i, hi, rfl⟩
    · rw [payload_addAll (has_of_below hc hroot hx)]
      exact hc.named n hx ((hold hx).bearsName hname)
    · rw [finalKind_new hi hp.has_turned] at hname
      rw [payload_addAll_new hi]
      exact hp.named _ (List.getElem_mem hi) hname
  · rw [hkind n (hreach n hn)]
    rcases (hreach n hn).old_or_new with hx | ⟨i, hi, rfl⟩
    · exact (hold hx).ne_objectInit (hc.calls n hx)
    · rw [finalKind_new hi hp.has_turned]
      exact hp.calls _ (List.getElem_mem hi)

end Plan

end Lowering

end TypeFlow
