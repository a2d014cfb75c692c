import TypeFlow.Proofs.Bounds.Table
import TypeFlow.Proofs.Coloring.Denotes
import TypeFlow.Proofs.Coloring.Recall
import TypeFlow.Proofs.TypeSet.Reduced
/-!
# Faithful palettes

The type nodes of a palette stand for what their sets reduce to, in a graph that has grown from
the one before coloring (`Faithful`). Making a type node keeps this and only lets the graph grow
(`makes_typeNode`), and so does painting, which sets one color (`faithful_paint`).
-/

namespace TypeFlow

open TypeSet

namespace Graph

variable {g h : Graph} {n m d : NodeId} {x : TypeSet} {r : Role} {R : Role → Prop}

/-! ## Growth by new nodes and by colors -/

theorem extends_add (k : NodeKind) (p : Payload) : Extends (fun _ => True) g (g.add k p) where
  size := by simp
  kind n hn := by
    rw [kind_add, if_neg]
    rintro rfl
    simp [has_fresh] at hn
  payload n hn := by
    rw [payload_add, if_neg]
    rintro rfl
    simp [has_fresh] at hn
  child n r _ _ := by simp [child?]
  parents n _ _ _ := by simp [parents]

theorem size_setChild (g : Graph) (n : NodeId) (r : Role) (d : NodeId) :
    (g.setChild n r d).size = g.size := by
  simp only [setChild, link, setIncoming, setOutgoing, size_update, removeChild]
  split <;> simp [dropIncoming, setIncoming]

/-- An edge from a new node to a type or a class lets a graph grow. -/
theorem Extends.setChild_new (hgh : Extends (fun _ => True) g h) (hkept : h.WellKept)
    (hold : g.has n = false) (hn : h.has n) (hd : h.has d) (hout : h.child? n r = none)
    (htype : (h.kind d).category = .type ∨ h.kind d = .decl .classDecl) :
    Extends (fun _ => True) g (h.setChild n r d) where
  size := by
    rw [size_setChild]
    exact hgh.size
  kind k hk := by rw [kind_setChild, hgh.kind k hk]
  payload k hk := by rw [payload_setChild, hgh.payload k hk]
  child k q hk hq := by
    rw [child?_setChild hkept hn, if_neg, hgh.child k q hk hq]
    rintro ⟨rfl, -⟩
    simp [hold] at hk
  parents k hk hcat hcls := by
    have hkind := hgh.kind k hk
    have hremove : h.removeChild n r = h := by
      have hnone : (h.outgoing n).find? (·.role = r) = none := by simpa [child?] using hout
      rw [removeChild, hnone]
    rw [setChild, hremove, parents_link hd, if_neg, hgh.parents k hk hcat hcls]
    rintro ⟨rfl, -⟩
    rw [hkind] at htype
    exact htype.elim hcat hcls

/-- A color lets a graph grow. -/
theorem extends_setColored (hkept : g.WellKept) (hn : g.has n) (hd : g.has d) :
    Extends (· ≠ .colored) g (g.setChild n .colored d) where
  size := Nat.le_of_eq (size_setChild g n .colored d).symm
  kind k _ := kind_setChild
  payload k _ := payload_setChild
  child k q _ hq := by
    rw [child?_setChild hkept hn, if_neg fun h => hq h.2]
  parents k _ _ _ := parents_setChild hd rfl

/-! ## Shown types -/

/-- A node stands for a type, and its number leaves room for the nodes of the arguments. -/
structure Shows (g : Graph) (n : NodeId) (x : TypeSet) : Prop where
  denotes : g.Denotes n x
  depth : x.depth ≤ n.index

theorem Shows.mono (hgh : Extends R g h) (hbase : R .base) (harg : R .arg) (hx : g.Shows n x) :
    h.Shows n x := ⟨hx.denotes.mono hgh hbase harg, hx.depth⟩

/-- A shown type reads as it is written. -/
theorem describeType_eq (hx : g.Shows n x) : g.describeType n = g.typeText x := by
  have hn : n.index < g.size := by simpa [has] using hx.denotes.has
  have hdepth := hx.depth
  exact describeOver_eq hx.denotes (by omega)

theorem category_of_denotes (hx : g.Denotes n x) :
    (g.kind n).category = .type ∨ g.kind n = .decl .classDecl := by
  cases hx with
  | dynamic hn | base hn | generic hn =>
    left
    rw [hn]
    rfl
  | cls hn => exact Or.inr hn

/-- The graph with a new node for a container and its argument. -/
def withGeneric (g : Graph) (base arg : NodeId) : Graph :=
  ((g.add (.type .generic) .none).setChild g.fresh .base base).setChild g.fresh .arg arg

theorem run_addGeneric (g : Graph) (base arg : NodeId) :
    Palette.addGeneric base arg g = (g.fresh, g.withGeneric base arg) := rfl

/-- A new container stands for the container of what its argument stands for. -/
theorem shows_withGeneric {b : BaseType} (hkept : g.WellKept) (hb : g.kind m = .type (.base b))
    (hx : g.Shows d x) : (g.withGeneric m d).WellKept ∧
      Extends (fun _ => True) g (g.withGeneric m d) ∧
        (g.withGeneric m d).Shows g.fresh (.arged b x) := by
  have hm : g.has m := has_of_kind hb (by simp)
  have hadd := extends_add (g := g) (.type .generic) .none
  have hkept₁ : (g.add (.type .generic) .none).WellKept := wellKept_add hkept _ _
  have hfresh : (g.add (.type .generic) .none).has g.fresh := by simp [has_add]
  have hout : ∀ q, (g.add (.type .generic) .none).child? g.fresh q = none := by
    simp [child?, outgoing_of_not_has has_fresh]
  have hbase := hadd.setChild_new hkept₁ has_fresh hfresh (hadd.has hm) (hout .base)
    (Or.inl (by rw [hadd.kind m hm, hb]; rfl))
  have hkept₂ := wellKept_setChild hkept₁ hfresh (hadd.has hm) .base
  have hout₂ : ((g.add (.type .generic) .none).setChild g.fresh .base m).child? g.fresh .arg =
      none := by
    rw [child?_setChild hkept₁ hfresh, if_neg (by simp), hout]
  have harg := hbase.setChild_new hkept₂ has_fresh (has_setChild.trans hfresh)
    (hbase.has hx.denotes.has) hout₂
    (category_of_denotes (hx.denotes.mono hbase trivial trivial))
  refine ⟨wellKept_setChild hkept₂ (has_setChild.trans hfresh) (hbase.has hx.denotes.has) .arg,
    harg, ?_, ?_⟩
  · have hdenotes := hx.denotes.mono harg trivial trivial
    refine .generic (m := m) (k := d) ?_ ?_ ((harg.kind m hm).trans hb) ?_ hdenotes
    · rw [withGeneric, kind_setChild, kind_setChild, kind_add, if_pos rfl]
    · rw [withGeneric, child?_setChild hkept₂ (has_setChild.trans hfresh), if_neg (by simp),
        child?_setChild hkept₁ hfresh, if_pos ⟨rfl, rfl⟩]
    · rw [withGeneric, child?_setChild hkept₂ (has_setChild.trans hfresh), if_pos ⟨rfl, rfl⟩]
  · have hlt : d.index < g.size := by simpa [has] using hx.denotes.has
    have hdepth := hx.depth
    simp only [TypeSet.depth, fresh]
    omega

end Graph

namespace Palette

variable {g : Graph} {p p' : Palette} {n m type : NodeId} {a x : TypeSet} {b : BaseType}
  {op make : Mix NodeId} {ok ok' : Graph → NodeId → Prop}

/-! ## Making type nodes -/

/-- The graph has grown from the one before coloring, and every type node that is remembered
stands for what its set reduces to. -/
structure Faithful (g : Graph) (p : Palette) : Prop where
  kept : p.graph.WellKept
  grown : Graph.Extends (· ≠ .colored) g p.graph
  made : ∀ a n, (a, n) ∈ p.made → p.graph.Shows n a.reduced
  void : ∀ n, p.void? = some n → p.graph.kind n = .type .void

theorem faithful_ofGraph (hg : g.WellKept) : Faithful g (ofGraph g) :=
  ⟨hg, .refl _ g, nofun, nofun⟩

/-- A larger graph keeps a palette faithful. -/
theorem Faithful.extend {h : Graph} (hp : Faithful g p) (hkept : h.WellKept)
    (hgrown : Graph.Extends (· ≠ .colored) p.graph h) : Faithful g { p with graph := h } where
  kept := hkept
  grown := hp.grown.trans hgrown
  made a n hn := (hp.made a n hn).mono hgrown nofun nofun
  void n hn := (hgrown.kind n (Graph.has_of_kind (hp.void n hn) nofun)).trans (hp.void n hn)

/-- From a palette, a step keeps faith, lets the graph grow, and answers a fitting node. -/
structure MakesAt (g : Graph) (op : Mix NodeId) (ok : Graph → NodeId → Prop) (p : Palette) :
    Prop where
  faithful : Faithful g (op.run p).2
  grown : Graph.Extends (fun _ => True) p.graph (op.run p).2.graph
  answer : ok (op.run p).2.graph (op.run p).1

/-- A step makes fitting nodes from every faithful palette. -/
def Makes (g : Graph) (op : Mix NodeId) (ok : Graph → NodeId → Prop) : Prop :=
  ∀ p, Faithful g p → MakesAt g op ok p

theorem MakesAt.bind {f : NodeId → Mix NodeId} (hop : MakesAt g op ok p)
    (hf : ∀ p' n, Faithful g p' → Graph.Extends (fun _ => True) p.graph p'.graph →
      ok p'.graph n → MakesAt g (f n) ok' p') : MakesAt g (op >>= f) ok' p := by
  have hnext := hf _ _ hop.faithful hop.grown hop.answer
  exact ⟨hnext.faithful, hop.grown.trans hnext.grown, hnext.answer⟩

/-- What stands for a set may be remembered for it. -/
theorem makes_remember (hmake : Makes g make fun h n => h.Shows n a.reduced) :
    Makes g (remember a make) fun h n => h.Shows n a.reduced := by
  intro p hp
  cases hl : p.made.lookup a with
  | some n =>
    have hrun : (remember a make).run p = (n, p) := by rw [run_remember, hl]
    have hmem : (a, n) ∈ p.made := by
      obtain ⟨xs, ys, hxs, -⟩ := List.lookup_eq_some_iff.1 hl
      rw [hxs]
      simp
    refine ⟨?_, ?_, ?_⟩ <;> rw [hrun]
    · exact hp
    · exact .refl _ _
    · exact hp.made a n hmem
  | none =>
    have hrun : (remember a make).run p = ((make.run p).1,
        { (make.run p).2 with made := (a, (make.run p).1) :: (make.run p).2.made }) := by
      rw [run_remember, hl]
    obtain ⟨hfaithful, hgrown, hanswer⟩ := hmake p hp
    refine ⟨?_, ?_, ?_⟩ <;> rw [hrun]
    · refine ⟨hfaithful.kept, hfaithful.grown, fun b n hn => ?_, hfaithful.void⟩
      rcases List.mem_cons.1 hn with hn | hn
      · cases hn
        exact hanswer
      · exact hfaithful.made b n hn
    · exact hgrown
    · exact hanswer

/-- A new node without edges keeps faith. -/
theorem makes_addNode {k : TypeKind}
    (hok : ∀ h : Graph, ok (h.add (.type k) .none) h.fresh) :
    Makes g (onGraph (Build.addNode (.type k) .none)) ok := by
  intro p hp
  have hgrown := Graph.extends_add (g := p.graph) (.type k) .none
  exact ⟨hp.extend (Graph.wellKept_add hp.kept _ _) (hgrown.mono fun _ _ => trivial), hgrown,
    hok p.graph⟩

theorem makes_voidNode : Makes g voidNode fun h n => h.kind n = .type .void := by
  intro p hp
  cases hv : p.void? with
  | some n =>
    have hrun : voidNode.run p = (n, p) := by rw [run_voidNode, hv]
    refine ⟨?_, ?_, ?_⟩ <;> rw [hrun]
    · exact hp
    · exact .refl _ _
    · exact hp.void n hv
  | none =>
    have hrun : voidNode.run p = (p.graph.fresh,
        { p with graph := p.graph.add (.type .void) .none, void? := some p.graph.fresh }) := by
      rw [run_voidNode, hv]
    have hgrown := Graph.extends_add (g := p.graph) (.type .void) .none
    have hkind : (p.graph.add (.type .void) .none).kind p.graph.fresh = .type .void := by
      rw [Graph.kind_add, if_pos rfl]
    have hfaithful := hp.extend (Graph.wellKept_add hp.kept _ _) (hgrown.mono fun _ _ => trivial)
    refine ⟨?_, ?_, ?_⟩ <;> rw [hrun]
    · refine ⟨hfaithful.kept, hfaithful.grown, hfaithful.made, fun n hn => ?_⟩
      cases hn
      exact hkind
    · exact hgrown
    · exact hkind

theorem makes_dynamicNode : Makes g dynamicNode fun h n => h.Shows n .univ :=
  makes_remember (a := .univ) <| makes_addNode fun h =>
    ⟨.dynamic (by rw [Graph.kind_add, if_pos rfl]), Nat.zero_le _⟩

theorem makes_baseNode : Makes g (baseNode b) fun h n => h.Shows n (.base b) :=
  makes_remember (a := .base b) <| makes_addNode fun h =>
    ⟨.base (by rw [Graph.kind_add, if_pos rfl]), Nat.zero_le _⟩

/-- A leaf over the classes of the graph gets a node that stands for it. -/
theorem makes_leafNode : ∀ {x : TypeSet}, Proper x →
    ClassesIn (fun c => g.kind c = .decl .classDecl) x →
      Makes g (leafNode x) fun h n => h.Shows n x
  | .base _, _, _ => makes_baseNode
  | .cls c, _, hc => fun p hp =>
    have hkind := hp.grown.kind c (Graph.has_of_kind hc nofun)
    ⟨hp, .refl _ _, .cls (hkind.trans hc), Nat.zero_le _⟩
  | .arged b arg, hx, hc => by
    refine makes_remember (a := .arged b arg) fun p hp => ?_
    refine (makes_baseNode p hp).bind fun p₁ base hp₁ _ hbase => ?_
    refine (makes_leafNode hx.2 hc p₁ hp₁).bind fun p₂ argNode hp₂ hgrown harg => ?_
    have hkind : p₂.graph.kind base = .type (.base b) := by
      cases (hbase.mono hgrown trivial trivial).denotes with
      | base h => exact h
    obtain ⟨hkept, hext, hshows⟩ := Graph.shows_withGeneric hp₂.kept hkind harg
    exact ⟨hp₂.extend hkept (hext.mono fun _ _ => trivial), hext, hshows⟩

/-- A set that is not empty gets a node that stands for what it reduces to. -/
theorem makes_typeNode (ha : TypeSet.Over (ClassesIn fun c => g.kind c = .decl .classDecl) a)
    (he : a ≠ .empty) : Makes g (typeNode a) fun h n => h.Shows n a.reduced := by
  have hleaf : ∀ x, Proper x → x = a → Makes g (leafNode x) fun h n => h.Shows n x := by
    rintro x hx rfl
    exact makes_leafNode hx (ha.2 hx.ne_univ x (by simp [hx.leaves]))
  have hproper : ∀ x, x ≠ .univ → x.leaves = [x] → x = a → Proper x := by
    rintro x hu hx rfl
    exact ha.1.proper hu (by simp [hx])
  cases a with
  | univ => exact makes_dynamicNode
  | empty => exact absurd rfl he
  | base b => exact hleaf _ trivial rfl
  | arged b x => exact hleaf _ (hproper _ nofun rfl rfl) rfl
  | cls c => exact hleaf _ trivial rfl
  | anyOf ops =>
    refine makes_remember ?_
    change Makes g (leafNode (anyOf ops).reduced) _
    rcases ha.reduced (fun x y => classesIn_of_refines) he with hu | ⟨hx, hc⟩
    · rw [hu]
      exact makes_dynamicNode
    · exact makes_leafNode hx hc

/-! ## Painting -/

/-- What painting one node does: it keeps faith, forgets nothing, changes no color but that of the
node, and gives the node a fitting one. -/
structure Paints (g : Graph) (n : NodeId) (ok : Palette → NodeId → Prop) (p p' : Palette) :
    Prop where
  faithful : Faithful g p'
  keeps : Keeps p p'
  grown : Graph.Extends (· ≠ .colored) p.graph p'.graph
  others : ∀ m ≠ n, p.graph.has m → p'.graph.coloredType? m = p.graph.coloredType? m
  colored : ∃ k, p'.graph.coloredType? n = some k ∧ ok p' k

theorem keeps_paint (n type : NodeId) (p : Palette) : Keeps p ((paint n type).run p).2 := by
  rw [run_paint]
  exact .of_eq rfl rfl

/-- A count does not matter to faith. -/
theorem Faithful.count (hp : Faithful g p) (stats : ColorStats) :
    Faithful g { p with stats := stats } := ⟨hp.kept, hp.grown, hp.made, hp.void⟩

theorem paints_paint {ok : Palette → NodeId → Prop} (hp : Faithful g p) (hn : p.graph.has n)
    (htype : p.graph.has type) (hok : ok ((paint n type).run p).2 type) :
    Paints g n ok p ((paint n type).run p).2 := by
  have hgrown := Graph.extends_setColored hp.kept hn htype
  refine ⟨(hp.extend (Graph.wellKept_setChild hp.kept hn htype .colored) hgrown).count _,
    keeps_paint n type p, hgrown, fun m hm _ => ?_, type, ?_, hok⟩ <;> rw [run_paint]
  · rw [Graph.coloredType?, Graph.child?_setChild hp.kept hn, if_neg fun h => hm h.1]
    rfl
  · rw [Graph.coloredType?, Graph.child?_setChild hp.kept hn, if_pos ⟨rfl, rfl⟩]

/-- What comes before painting may let the graph grow. -/
theorem Paints.of_grown {ok : Palette → NodeId → Prop} {q : Palette} (hkeeps : Keeps p q)
    (hgrown : Graph.Extends (fun _ => True) p.graph q.graph) (h : Paints g n ok q p') :
    Paints g n ok p p' where
  faithful := h.faithful
  keeps := hkeeps.trans h.keeps
  grown := (hgrown.mono fun _ _ => trivial).trans h.grown
  others m hm hhas := (h.others m hm (hgrown.has hhas)).trans (hgrown.child m .colored hhas trivial)
  colored := h.colored

theorem paints_paintVoid (hp : Faithful g p) (hn : p.graph.has n) :
    Paints g n (fun q k => q.graph.kind k = .type .void ∧ q.Recalls .empty k) p
      ((paintVoid n).run p).2 := by
  obtain ⟨q, hq⟩ : ∃ q, q = { p with stats := { p.stats with void := p.stats.void + 1 } } :=
    ⟨_, rfl⟩
  have hgraph : q.graph = p.graph := by rw [hq]
  have hkeeps : Keeps p q := .of_eq (by rw [hq]) (by rw [hq])
  obtain ⟨hfaithful, hgrown, hkind⟩ := makes_voidNode q (hq ▸ hp.count _)
  have hvoid := keeps_voidNode q
  have hrecalls : (voidNode.run q).2.Recalls .empty (voidNode.run q).1 := void?_voidNode q
  rcases hr : voidNode.run q with ⟨type, r⟩
  rw [hr] at hfaithful hgrown hkind hvoid hrecalls
  rw [run_paintVoid (hq ▸ hr)]
  refine Paints.of_grown (hkeeps.trans hvoid) (hgraph ▸ hgrown) ?_
  refine paints_paint hfaithful (hgrown.has (hgraph ▸ hn)) (Graph.has_of_kind hkind nofun)
    ⟨?_, (keeps_paint n _ _).recalls hrecalls⟩
  rw [run_paint]
  exact Graph.kind_setChild.trans hkind

theorem paints_paintType (hp : Faithful g p) (hn : p.graph.has n)
    (ha : TypeSet.Over (ClassesIn fun c => g.kind c = .decl .classDecl) a) (he : a ≠ .empty) :
    Paints g n (fun q k => q.graph.Shows k a.reduced ∧ q.Recalls a k) p
      ((paintType n a).run p).2 := by
  obtain ⟨hfaithful, hgrown, hshows⟩ := makes_typeNode ha he p hp
  have hrecalls := recalls_typeNode a p
  have hkeeps := keeps_typeNode a p
  rcases hr : (typeNode a).run p with ⟨type, r⟩
  rw [hr] at hfaithful hgrown hshows hrecalls hkeeps
  obtain ⟨stats, hstats⟩ := run_countDynamic type r
  have hcount : Keeps r { r with stats := stats } := .of_eq rfl rfl
  have htype := hshows.denotes.has
  have hn' := hgrown.has hn
  rw [run_paintType hr, hstats]
  refine Paints.of_grown (hkeeps.trans hcount) hgrown ?_
  refine paints_paint (hfaithful.count stats) hn' htype
    ⟨?_, (keeps_paint n _ _).recalls (hcount.recalls hrecalls)⟩
  rw [run_paint]
  exact hshows.mono (Graph.extends_setColored hfaithful.kept hn' htype) nofun nofun

/-! ## Coloring -/

/-- A node fits bounds: it is void if nothing is both shown and permitted, and otherwise stands for
what that reduces to. -/
def Fits (b : Bounds) (h : Graph) (k : NodeId) : Prop :=
  (b.shown.inter b.permitted = .empty ∧ h.kind k = .type .void) ∨
    (b.shown.inter b.permitted ≠ .empty ∧ h.Shows k (b.shown.inter b.permitted).reduced)

theorem Fits.mono {b : Bounds} {h h' : Graph} {k : NodeId}
    (hh : Graph.Extends (· ≠ .colored) h h') (hk : Fits b h k) : Fits b h' k := by
  rcases hk with ⟨he, hk⟩ | ⟨he, hk⟩
  · exact Or.inl ⟨he, (hh.kind k (Graph.has_of_kind hk nofun)).trans hk⟩
  · exact Or.inr ⟨he, hk.mono hh nofun nofun⟩

end Palette

theorem Bounds.valid_eq {b : Bounds} (hb : b.Canonical) :
    b.valid = .ok (b.shown.inter b.permitted) := by
  simp only [valid, TypeSet.inter?, TypeSet.checked, hb.1.check, hb.2.check]

namespace Palette

variable {g : Graph} {p p' : Palette} {n m : NodeId} {t : BoundsTable} {b : Bounds}

/-- The classes of a graph, as a family of leaves. -/
abbrev ClassLeaf (g : Graph) : TypeSet → Prop := ClassesIn fun c => g.kind c = .decl .classDecl

/-- A node with bounds that is colored gets a node that fits them, the one that the palette has for
what is both shown and permitted. -/
theorem paints_of_colorBounds (hp : Faithful g p) (hn : p.graph.has n)
    (hb : TypeSet.Over (ClassLeaf g) b.shown ∧ TypeSet.Over (ClassLeaf g) b.permitted)
    (h : (colorBounds n b).run p = (.ok (), p')) :
    Paints g n (fun q k => Fits b q.graph k ∧ q.Recalls (b.shown.inter b.permitted) k) p p' := by
  have hvalid := Bounds.valid_eq (b := b) ⟨hb.1.1, hb.2.1⟩
  by_cases he : b.shown.inter b.permitted = .empty
  · rw [he] at hvalid
    by_cases hm : mayYieldNothing p.graph n = true
    · rw [run_colorBounds_void hvalid hm] at h
      obtain ⟨-, rfl⟩ := Run.outcome_eq.1 h
      have hpaints := paints_paintVoid hp hn
      exact { hpaints with
        colored := hpaints.colored.imp fun k hk => ⟨hk.1, Or.inl ⟨he, hk.2.1⟩, he ▸ hk.2.2⟩ }
    · rw [run_colorBounds_nothing hvalid (by simpa using hm)] at h
      cases (Run.outcome_eq.1 h).1
  · rw [run_colorBounds_type hvalid he] at h
    obtain ⟨-, rfl⟩ := Run.outcome_eq.1 h
    have hpaints := paints_paintType hp hn (over_inter hb.1 hb.2) he
    exact { hpaints with
      colored := hpaints.colored.imp fun k hk => ⟨hk.1, Or.inr ⟨he, hk.2.1⟩, hk.2.2⟩ }

/-- Coloring nodes one by one keeps faith, forgets nothing and leaves other nodes alone, and in the
end every node with bounds has a color that fits them, the one that the palette has for them. -/
theorem colored_of_forM (ht : t.Over (ClassLeaf g)) : ∀ {nodes : List NodeId} {p : Palette},
    Faithful g p → (∀ n ∈ nodes, g.has n) →
      (nodes.forM (color t)).run p = (.ok (), p') →
      Faithful g p' ∧ Keeps p p' ∧ Graph.Extends (· ≠ .colored) p.graph p'.graph ∧
        (∀ m, m ∉ nodes → p.graph.has m → p'.graph.coloredType? m = p.graph.coloredType? m) ∧
        ∀ n ∈ nodes, ∀ b, t.of? n = some b → ∃ k, p'.graph.coloredType? n = some k ∧
          Fits b p'.graph k ∧ p'.Recalls (b.shown.inter b.permitted) k
  | [], p, hp, _, h => by
    obtain ⟨-, rfl⟩ := Run.outcome_eq.1 h
    exact ⟨hp, .refl _, .refl _ _, fun _ _ _ => rfl, nofun⟩
  | n :: ns, p, hp, hnodes, h => by
    obtain ⟨hn, hns⟩ := List.forall_mem_cons.1 hnodes
    rw [List.forM_eq_forM, List.forM_cons] at h
    obtain ⟨_, q, hq, hrest⟩ := Run.run_bind_eq_ok.1 h
    have hhas := hp.grown.has hn
    have hstep : Faithful g q ∧ Keeps p q ∧ Graph.Extends (· ≠ .colored) p.graph q.graph ∧
        (∀ m ≠ n, p.graph.has m → q.graph.coloredType? m = p.graph.coloredType? m) ∧
          ∀ b, t.of? n = some b → ∃ k, q.graph.coloredType? n = some k ∧
            Fits b q.graph k ∧ q.Recalls (b.shown.inter b.permitted) k := by
      cases hb : t.of? n with
      | none =>
        rw [run_color_unbound hb] at hq
        obtain ⟨-, rfl⟩ := Run.outcome_eq.1 hq
        exact ⟨hp, .refl _, .refl _ _, fun _ _ _ => rfl, nofun⟩
      | some b =>
        have hover : TypeSet.Over (ClassLeaf g) b.shown ∧
            TypeSet.Over (ClassLeaf g) b.permitted := by
          obtain ⟨s, -, rfl⟩ := Option.map_eq_some_iff.1 hb
          exact ht s
        rw [run_color_bound hb] at hq
        obtain ⟨hfaithful, hkeeps, hgrown, hothers, hcolored⟩ :=
          paints_of_colorBounds hp hhas hover hq
        exact ⟨hfaithful, hkeeps, hgrown, hothers, fun b' hb' => Option.some.inj hb' ▸ hcolored⟩
    obtain ⟨hfaithful, hkeeps, hgrown, hothers, hcolored⟩ := hstep
    obtain ⟨hfaithful', hkeeps', hgrown', hothers', hcolored'⟩ :=
      colored_of_forM ht hfaithful hns hrest
    refine ⟨hfaithful', hkeeps.trans hkeeps', hgrown.trans hgrown', fun m hm hmhas => ?_,
      fun k hk b hb => ?_⟩
    · obtain ⟨hmn, hmns⟩ := not_or.1 (List.mem_cons.not.1 hm)
      rw [hothers' m hmns (hgrown.has hmhas), hothers m hmn hmhas]
    · by_cases hkns : k ∈ ns
      · exact hcolored' k hkns b hb
      · obtain rfl := (List.mem_cons.1 hk).resolve_right hkns
        obtain ⟨c, hc, hfits, hrecalls⟩ := hcolored b hb
        exact ⟨c, (hothers' k hkns (hgrown.has hhas)).trans hc, hfits.mono hgrown',
          hkeeps'.recalls hrecalls⟩

end Palette

end TypeFlow
