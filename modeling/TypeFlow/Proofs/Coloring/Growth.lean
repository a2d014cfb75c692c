import TypeFlow.Proofs.Coloring.Verdict
import TypeFlow.Proofs.Graph.Hang
/-!
# What coloring adds

Coloring adds type nodes to the graph and nothing else (`addsTypes_of_forM`). What it counts is
decided by the bounds of the nodes alone, in whatever graph they are colored (`stats_of_forM`).
-/

namespace TypeFlow

namespace Graph

variable {g h k : Graph} {n d : NodeId}

/-- The second graph has the nodes of the first, and type nodes besides. -/
structure AddsTypes (g h : Graph) : Prop where
  has : ∀ n, g.has n → h.has n
  kind : ∀ n, g.has n → h.kind n = g.kind n
  new : ∀ n, h.has n → g.has n = false → (h.kind n).category = .type

namespace AddsTypes

theorem refl (g : Graph) : AddsTypes g g :=
  ⟨fun _ hn => hn, fun _ _ => rfl, fun n hn hno => by simp [hn] at hno⟩

theorem trans (hgh : AddsTypes g h) (hhk : AddsTypes h k) : AddsTypes g k where
  has n hn := hhk.has n (hgh.has n hn)
  kind n hn := (hhk.kind n (hgh.has n hn)).trans (hgh.kind n hn)
  new n hn hno := by
    by_cases hh : h.has n = true
    · rw [hhk.kind n hh]
      exact hgh.new n hh hno
    · exact hhk.new n hn (by simpa using hh)

theorem add (g : Graph) (type : TypeKind) (p : Payload) :
    AddsTypes g (g.add (.type type) p) where
  has n hn := by simp [has_add, hn]
  kind n hn := by rw [kind_add, if_neg (ne_fresh hn)]
  new n hn hno := by
    obtain rfl : n = g.fresh := by simpa [has_add, hno] using hn
    rw [kind_add, if_pos rfl]
    rfl

theorem setChild (g : Graph) (n : NodeId) (r : Role) (d : NodeId) :
    AddsTypes g (g.setChild n r d) where
  has m hm := has_setChild.trans hm
  kind m _ := kind_setChild
  new m hm hno := by
    rw [has_setChild, hno] at hm
    cases hm

end AddsTypes

theorem addsTypes_withGeneric (g : Graph) (base arg : NodeId) :
    AddsTypes g (g.withGeneric base arg) :=
  ((AddsTypes.add g .generic .none).trans (.setChild _ _ _ _)).trans (.setChild _ _ _ _)

end Graph

namespace Palette

open TypeSet

variable {g : Graph} {p p' p'' : Palette} {n type : NodeId} {a : TypeSet} {b : Bounds}
  {t : BoundsTable} {op make : Mix NodeId}

/-! ## Making type nodes -/

/-- The second palette has more type nodes, and no more is counted. -/
structure Mixed (p p' : Palette) : Prop where
  adds : p.graph.AddsTypes p'.graph
  stats : p'.stats = p.stats

namespace Mixed

theorem refl (p : Palette) : Mixed p p := ⟨.refl _, rfl⟩

theorem trans (h : Mixed p p') (h' : Mixed p' p'') : Mixed p p'' :=
  ⟨h.adds.trans h'.adds, h'.stats.trans h.stats⟩

theorem bind {f : NodeId → Mix NodeId} (hop : ∀ p, Mixed p (op.run p).2)
    (hf : ∀ n p, Mixed p ((f n).run p).2) (p : Palette) : Mixed p ((op >>= f).run p).2 :=
  (hop p).trans (hf _ _)

theorem onGraph {step : Build NodeId} (h : ∀ g : Graph, g.AddsTypes (step g).2) (p : Palette) :
    Mixed p ((Palette.onGraph step).run p).2 := ⟨h p.graph, rfl⟩

theorem onGraph_addNode (type : TypeKind) (p : Palette) :
    Mixed p ((Palette.onGraph (Build.addNode (.type type) .none)).run p).2 :=
  onGraph (fun g => .add g type .none) p

theorem onGraph_addGeneric (base arg : NodeId) (p : Palette) :
    Mixed p ((Palette.onGraph (addGeneric base arg)).run p).2 := by
  refine onGraph (fun g => ?_) p
  rw [Graph.run_addGeneric]
  exact Graph.addsTypes_withGeneric g base arg

theorem remember (hmake : ∀ p, Mixed p (make.run p).2) (a : TypeSet) (p : Palette) :
    Mixed p ((Palette.remember a make).run p).2 := by
  rw [run_remember]
  cases p.made.lookup a with
  | some n => exact .refl p
  | none => exact ⟨(hmake p).adds, (hmake p).stats⟩

theorem voidNode (p : Palette) : Mixed p (Palette.voidNode.run p).2 := by
  rw [run_voidNode]
  cases p.void? with
  | some n => exact .refl p
  | none => exact ⟨.add p.graph .void .none, rfl⟩

theorem leafNode : ∀ (a : TypeSet) (p : Palette), Mixed p ((Palette.leafNode a).run p).2
  | .cls _, p => .refl p
  | .base b, p => remember (onGraph_addNode _) (.base b) p
  | .arged b arg, p =>
    have hbase : ∀ p, Mixed p ((baseNode b).run p).2 := remember (onGraph_addNode _) (.base b)
    remember (bind hbase fun _ => bind (leafNode arg) fun _ => onGraph_addGeneric _ _)
      (.arged b arg) p
  | .empty, p => voidNode p
  | .univ, p | .anyOf _, p => remember (onGraph_addNode _) .univ p

theorem typeNode (a : TypeSet) (p : Palette) : Mixed p ((Palette.typeNode a).run p).2 := by
  cases a with
  | anyOf ops =>
    rw [Palette.typeNode]
    exact remember (leafNode _) (.anyOf ops) p
  | _ => exact leafNode _ p

end Mixed

/-! ## Painting -/

theorem addsTypes_paintVoid (n : NodeId) (p : Palette) :
    p.graph.AddsTypes ((paintVoid n).run p).2.graph := by
  have hvoid := (Mixed.voidNode { p with stats := { p.stats with void := p.stats.void + 1 } }).adds
  rcases hr : voidNode.run { p with stats := { p.stats with void := p.stats.void + 1 } } with
    ⟨type, q⟩
  rw [hr] at hvoid
  rw [run_paintVoid hr]
  exact hvoid.trans (.setChild _ _ _ _)

theorem addsTypes_paintType (n : NodeId) (a : TypeSet) (p : Palette) :
    p.graph.AddsTypes ((paintType n a).run p).2.graph := by
  have htype := (Mixed.typeNode a p).adds
  rcases hr : (typeNode a).run p with ⟨type, q⟩
  rw [hr] at htype
  obtain ⟨stats, hstats⟩ := run_countDynamic type q
  rw [run_paintType hr, hstats]
  exact htype.trans (.setChild _ _ _ _)

theorem addsTypes_color (t : BoundsTable) (n : NodeId) (p : Palette) :
    p.graph.AddsTypes ((color t n).run p).2.graph := by
  cases hb : t.of? n with
  | none =>
    rw [run_color_unbound hb]
    exact .refl _
  | some b =>
    rw [run_color_bound hb]
    rcases hv : b.valid with cause | a
    · rw [run_colorBounds_malformed hv]
      exact .refl _
    · by_cases ha : a = .empty
      · subst ha
        by_cases hm : mayYieldNothing p.graph n
        · rw [run_colorBounds_void hv hm]
          exact addsTypes_paintVoid n p
        · rw [run_colorBounds_nothing hv (by simpa using hm)]
          exact .refl _
      · rw [run_colorBounds_type hv ha]
        exact addsTypes_paintType n a p

/-- Coloring nodes adds type nodes only. -/
theorem addsTypes_of_forM : ∀ {nodes : List NodeId} {p : Palette} {outcome : Except Fault Unit},
    (nodes.forM (color t)).run p = (outcome, p') → p.graph.AddsTypes p'.graph
  | [], p, outcome, h => by
    obtain ⟨-, rfl⟩ := Run.outcome_eq.1 h
    exact .refl _
  | n :: ns, p, outcome, h => by
    have hstep := addsTypes_color t n p
    rw [List.forM_eq_forM, List.forM_cons, Run.run_bind] at h
    rcases hrun : (color t n).run p with ⟨fault | _, q⟩
    · rw [hrun] at h hstep
      obtain ⟨-, rfl⟩ := Run.outcome_eq.1 h
      exact hstep
    · rw [hrun] at h hstep
      exact hstep.trans (addsTypes_of_forM h)

/-! ## Counting -/

/-- What is counted where bounds are colored. -/
def tally (stats : ColorStats) (b : Bounds) : ColorStats :=
  if b.shown.inter b.permitted = .empty then
    ⟨stats.colored + 1, stats.dynamic, stats.void + 1⟩
  else if (b.shown.inter b.permitted).reduced = .univ then
    ⟨stats.colored + 1, stats.dynamic + 1, stats.void⟩
  else ⟨stats.colored + 1, stats.dynamic, stats.void⟩

theorem stats_paintVoid (n : NodeId) (p : Palette) : ((paintVoid n).run p).2.stats =
    ⟨p.stats.colored + 1, p.stats.dynamic, p.stats.void + 1⟩ := by
  have hvoid := (Mixed.voidNode { p with stats := { p.stats with void := p.stats.void + 1 } }).stats
  rcases hr : voidNode.run { p with stats := { p.stats with void := p.stats.void + 1 } } with
    ⟨type, q⟩
  rw [hr] at hvoid
  rw [run_paintVoid hr, run_paint]
  exact congrArg (fun stats : ColorStats => { stats with colored := stats.colored + 1 }) hvoid

/-- A type node is dynamic if it stands for everything. -/
theorem kind_dynamic_iff {h : Graph} {k : NodeId} {x : TypeSet} (hk : h.Shows k x) :
    h.kind k = .type .dynamic ↔ x = .univ := by
  cases hk.denotes with
  | dynamic hkind => simp [hkind]
  | base hkind | generic hkind | cls hkind => simp [hkind]

theorem stats_paintType (hp : Faithful g p)
    (ha : TypeSet.Over (ClassesIn fun c => g.kind c = .decl .classDecl) a) (he : a ≠ .empty) :
    ((paintType n a).run p).2.stats =
      if a.reduced = .univ then ⟨p.stats.colored + 1, p.stats.dynamic + 1, p.stats.void⟩
      else ⟨p.stats.colored + 1, p.stats.dynamic, p.stats.void⟩ := by
  obtain ⟨-, -, hshows⟩ := makes_typeNode ha he p hp
  have hstats := (Mixed.typeNode a p).stats
  rcases hr : (typeNode a).run p with ⟨type, q⟩
  rw [hr] at hshows hstats
  replace hstats : q.stats = p.stats := hstats
  have hcount : ((countDynamic type).run q).2.stats =
      if a.reduced = .univ then { q.stats with dynamic := q.stats.dynamic + 1 } else q.stats := by
    change (if q.graph.kind type = .type .dynamic then _ else q : Palette).stats = _
    simp only [kind_dynamic_iff hshows]
    split <;> rfl
  rw [run_paintType hr, run_paint]
  simp only [hcount, hstats]
  split <;> rfl

theorem stats_of_colorBounds (hp : Faithful g p)
    (hb : TypeSet.Over (ClassLeaf g) b.shown ∧ TypeSet.Over (ClassLeaf g) b.permitted)
    (h : (colorBounds n b).run p = (.ok (), p')) : p'.stats = tally p.stats b := by
  have hvalid := Bounds.valid_eq (b := b) ⟨hb.1.1, hb.2.1⟩
  by_cases he : b.shown.inter b.permitted = .empty
  · rw [he] at hvalid
    by_cases hm : mayYieldNothing p.graph n = true
    · rw [run_colorBounds_void hvalid hm] at h
      obtain ⟨-, rfl⟩ := Run.outcome_eq.1 h
      rw [tally, if_pos he]
      exact stats_paintVoid n p
    · rw [run_colorBounds_nothing hvalid (by simpa using hm)] at h
      cases (Run.outcome_eq.1 h).1
  · rw [run_colorBounds_type hvalid he] at h
    obtain ⟨-, rfl⟩ := Run.outcome_eq.1 h
    rw [tally, if_neg he]
    exact stats_paintType hp (over_inter hb.1 hb.2) he

/-- What is counted where nodes are colored does not depend on the graph. -/
theorem stats_of_forM (ht : t.Over (ClassLeaf g)) : ∀ {nodes : List NodeId} {p : Palette},
    Faithful g p → (∀ n ∈ nodes, g.has n) → (nodes.forM (color t)).run p = (.ok (), p') →
      p'.stats = (nodes.filterMap t.of?).foldl tally p.stats
  | [], p, _, _, h => by
    obtain ⟨-, rfl⟩ := Run.outcome_eq.1 h
    rfl
  | n :: ns, p, hp, hnodes, h => by
    obtain ⟨hn, hns⟩ := List.forall_mem_cons.1 hnodes
    rw [List.forM_eq_forM, List.forM_cons] at h
    obtain ⟨_, q, hq, hrest⟩ := Run.run_bind_eq_ok.1 h
    cases hb : t.of? n with
    | none =>
      rw [run_color_unbound hb] at hq
      obtain ⟨-, rfl⟩ := Run.outcome_eq.1 hq
      rw [List.filterMap_cons_none hb]
      exact stats_of_forM ht hp hns hrest
    | some b =>
      have hover : TypeSet.Over (ClassLeaf g) b.shown ∧ TypeSet.Over (ClassLeaf g) b.permitted := by
        obtain ⟨s, -, rfl⟩ := Option.map_eq_some_iff.1 hb
        exact ht s
      rw [run_color_bound hb] at hq
      have hfaithful := (paints_of_colorBounds hp (hp.grown.has hn) hover hq).faithful
      rw [List.filterMap_cons_some hb, List.foldl_cons, ← stats_of_colorBounds hp hover hq]
      exact stats_of_forM ht hfaithful hns hrest

end Palette

end TypeFlow
