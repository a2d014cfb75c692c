import TypeFlow.Proofs.Coloring.Growth
/-!
# One type node for each type

A palette remembers type nodes for unions as well as for the leaves that these reduce to. Whatever
order the sets are asked for in, a set has the type node of what it reduces to (`Interned`): making
a type node keeps this (`Interned.typeNode`), and so does coloring (`interned_of_forM`). What is
counted on the way is how many sets reduce to what (`foldl_tally`).
-/

namespace TypeFlow

namespace Palette

open TypeSet

variable {g : Graph} {p p' : Palette} {n k l : NodeId} {a b x : TypeSet} {t : BoundsTable}
  {make : Mix NodeId}

/-! ## What is remembered on the way -/

theorem lookup_remember_of_ne (hba : b ≠ a)
    (hmake : (make.run p).2.made.lookup b = p.made.lookup b) :
    ((remember a make).run p).2.made.lookup b = p.made.lookup b := by
  rw [run_remember]
  cases p.made.lookup a with
  | some n => rfl
  | none => rw [List.lookup_cons, beq_false_of_ne hba, hmake]

/-- A set that has no node yet takes none from another one. -/
theorem keeps_cons (ha : p.made.lookup a = none) (k : NodeId) :
    Keeps p { p with made := (a, k) :: p.made } := by
  refine ⟨fun b l hl => ?_, fun _ h => h⟩
  have hba : b ≠ a := by
    rintro rfl
    cases ha.symm.trans hl
  rwa [List.lookup_cons, beq_false_of_ne hba]

theorem made_voidNode (p : Palette) : (voidNode.run p).2.made = p.made := by
  rw [run_voidNode]
  cases p.void? <;> rfl

theorem lookup_baseNode {c : BaseType} (ha : a ≠ .base c) (p : Palette) :
    ((baseNode c).run p).2.made.lookup a = p.made.lookup a :=
  lookup_remember_of_ne ha rfl

theorem lookup_dynamicNode (ha : a ≠ .univ) (p : Palette) :
    (dynamicNode.run p).2.made.lookup a = p.made.lookup a :=
  lookup_remember_of_ne ha rfl

/-- The type nodes that a container is made of. -/
def parts (b : BaseType) (arg : TypeSet) : Mix NodeId := do
  let base ← baseNode b
  let argNode ← leafNode arg
  onGraph (addGeneric base argNode)

theorem leafNode_arged (b : BaseType) (arg : TypeSet) :
    leafNode (.arged b arg) = remember (.arged b arg) (parts b arg) := by
  rw [leafNode, parts]

theorem run_parts (b : BaseType) (arg : TypeSet) (p : Palette) : ∃ g,
    ((parts b arg).run p).2 = { ((leafNode arg).run ((baseNode b).run p).2).2 with graph := g } :=
  ⟨_, rfl⟩

/-- The type node of a leaf brings along those of its parts only, which are leaves and no
deeper. -/
theorem lookup_leafNode : ∀ (x : TypeSet) (p : Palette),
    x.depth < a.depth ∨ (∃ ops, a = .anyOf ops) →
      ((leafNode x).run p).2.made.lookup a = p.made.lookup a
  | .cls _, _, _ => rfl
  | .base b, p, ha => by
    rw [leafNode]
    exact lookup_baseNode (by rintro rfl; simp [TypeSet.depth] at ha) p
  | .arged b arg, p, ha => by
    rw [leafNode_arged]
    refine lookup_remember_of_ne (by rintro rfl; simp at ha) ?_
    obtain ⟨g, hg⟩ := run_parts b arg p
    rw [hg]
    have harg : arg.depth < a.depth ∨ ∃ ops, a = .anyOf ops := ha.imp_left fun h => by
      simp only [TypeSet.depth] at h
      omega
    exact (lookup_leafNode arg _ harg).trans
      (lookup_baseNode (by rintro rfl; simp [TypeSet.depth] at ha) p)
  | .empty, p, _ => by rw [leafNode, made_voidNode]
  | .univ, p, ha => by
    rw [leafNode]
    exact lookup_dynamicNode (by rintro rfl; simp [TypeSet.depth] at ha) p
  | .anyOf _, p, ha => by
    rw [leafNode]
    exact lookup_dynamicNode (by rintro rfl; simp [TypeSet.depth] at ha) p

/-- What a palette answers for a leaf it answers from then on. -/
theorem recalls_leafNode (hx : x = .univ ∨ Proper x) (p : Palette) :
    ((leafNode x).run p).2.Recalls x ((leafNode x).run p).1 := by
  have hleaf : typeNode x = leafNode x := by
    cases x with
    | anyOf ops => simp [Proper] at hx
    | _ => rfl
  rw [← hleaf]
  exact recalls_typeNode x p

/-! ## Interning -/

/-- Every set that is remembered has the node of what it reduces to. -/
def Interned (p : Palette) : Prop := ∀ a k, p.made.lookup a = some k → p.Recalls a.reduced k

namespace Interned

theorem ofGraph (g : Graph) : Interned (Palette.ofGraph g) := nofun

theorem recalls (hp : Interned p) (h : p.Recalls a k) : p.Recalls a.reduced k := by
  cases a with
  | anyOf ops => exact hp _ k h
  | _ => exact h

/-- Only the nodes that are remembered matter. -/
theorem of_eq (hp : Interned p) (hmade : p'.made = p.made) (hvoid : p'.void? = p.void?) :
    Interned p' := fun a k hk =>
  (Keeps.of_eq hmade hvoid).recalls (hp a k (hmade ▸ hk))

/-- A set may be remembered with the node of what it reduces to. -/
theorem remember (hp : Interned p) (hmake : Interned (make.run p).2)
    (hnew : (make.run p).2.made.lookup a = p.made.lookup a)
    (hanswer : ((Palette.remember a make).run p).2.Recalls a.reduced
      ((Palette.remember a make).run p).1) :
    Interned ((Palette.remember a make).run p).2 := by
  cases hl : p.made.lookup a with
  | some n =>
    rw [run_remember, hl]
    exact hp
  | none =>
    rw [run_remember, hl] at hanswer ⊢
    rw [hl] at hnew
    intro b k hk
    by_cases hba : b = a
    · subst hba
      obtain rfl : (make.run p).1 = k := by simpa using hk
      exact hanswer
    · refine (keeps_cons hnew _).recalls (hmake b k ?_)
      rwa [List.lookup_cons, beq_false_of_ne hba] at hk

theorem voidNode (hp : Interned p) : Interned (Palette.voidNode.run p).2 := fun a k hk =>
  (keeps_voidNode p).recalls (hp a k (made_voidNode p ▸ hk))

theorem baseNode (hp : Interned p) (b : BaseType) : Interned ((Palette.baseNode b).run p).2 :=
  hp.remember (hp.of_eq rfl rfl) rfl (lookup_remember (.base b) _ p)

theorem dynamicNode (hp : Interned p) : Interned (Palette.dynamicNode.run p).2 :=
  hp.remember (hp.of_eq rfl rfl) rfl (lookup_remember .univ _ p)

theorem leafNode : ∀ (x : TypeSet) {p : Palette}, Interned p →
    Interned ((Palette.leafNode x).run p).2
  | .cls _, _, hp => hp
  | .base b, p, hp => by
    rw [Palette.leafNode]
    exact hp.baseNode b
  | .arged b arg, p, hp => by
    rw [leafNode_arged]
    have harg := leafNode arg (hp.baseNode b)
    obtain ⟨g, hg⟩ := run_parts b arg p
    refine hp.remember (hg ▸ harg.of_eq rfl rfl) ?_ (lookup_remember (.arged b arg) _ p)
    rw [hg]
    exact (lookup_leafNode arg _ (Or.inl (Nat.lt_succ_self _))).trans
      (lookup_baseNode (c := b) (by nofun) p)
  | .empty, _, hp => by
    rw [Palette.leafNode]
    exact hp.voidNode
  | .univ, p, hp => by
    rw [Palette.leafNode]
    exact hp.dynamicNode
  | .anyOf _, p, hp => by
    rw [Palette.leafNode]
    exact hp.dynamicNode

/-- Making the type node of a set that is not empty keeps one node for each type. -/
theorem typeNode (hp : Interned p) (ha : a.Canonical) (he : a ≠ .empty) :
    Interned ((Palette.typeNode a).run p).2 := by
  cases a with
  | anyOf ops =>
    rw [Palette.typeNode]
    have hlookup : ((Palette.leafNode (anyOf ops).reduced).run p).2.made.lookup (.anyOf ops) =
        p.made.lookup (.anyOf ops) := lookup_leafNode _ p (Or.inr ⟨ops, rfl⟩)
    refine hp.remember (leafNode _ hp) hlookup ?_
    cases hl : p.made.lookup (.anyOf ops) with
    | some n =>
      rw [run_remember, hl]
      exact hp _ n hl
    | none =>
      rw [run_remember, hl]
      refine (keeps_cons (hlookup.trans hl) _).recalls ?_
      exact recalls_leafNode ((reduced_spec ha he).imp_right And.left) p
  | _ => exact leafNode _ hp

theorem paint (hp : Interned p) (n type : NodeId) :
    Interned ((Palette.paint n type).run p).2 := by
  rw [run_paint]
  exact hp.of_eq rfl rfl

theorem paintVoid (hp : Interned p) (n : NodeId) : Interned ((Palette.paintVoid n).run p).2 := by
  have hcount : Interned { p with stats := { p.stats with void := p.stats.void + 1 } } :=
    hp.of_eq rfl rfl
  have hvoid := hcount.voidNode
  rcases hr : Palette.voidNode.run
    { p with stats := { p.stats with void := p.stats.void + 1 } } with ⟨type, q⟩
  rw [hr] at hvoid
  rw [run_paintVoid hr]
  exact hvoid.paint n type

theorem paintType (hp : Interned p) (n : NodeId) (ha : a.Canonical) (he : a ≠ .empty) :
    Interned ((Palette.paintType n a).run p).2 := by
  have htype := hp.typeNode ha he
  rcases hr : (Palette.typeNode a).run p with ⟨type, q⟩
  rw [hr] at htype
  obtain ⟨stats, hstats⟩ := run_countDynamic type q
  rw [run_paintType hr, hstats]
  have hcount : Interned { q with stats := stats } := htype.of_eq rfl rfl
  exact hcount.paint n type

/-- Coloring a node keeps one node for each type. -/
theorem color (hp : Interned p) (ht : t.Sound) (h : (Palette.color t n).run p = (.ok (), p')) :
    Interned p' := by
  cases hb : t.of? n with
  | none =>
    rw [run_color_unbound hb] at h
    obtain ⟨-, rfl⟩ := Run.outcome_eq.1 h
    exact hp
  | some b =>
    have hcanonical : b.Canonical := by
      obtain ⟨s, -, rfl⟩ := Option.map_eq_some_iff.1 hb
      exact ht.canonical s
    have hvalid := Bounds.valid_eq hcanonical
    rw [run_color_bound hb] at h
    by_cases he : b.shown.inter b.permitted = .empty
    · rw [he] at hvalid
      by_cases hm : mayYieldNothing p.graph n = true
      · rw [run_colorBounds_void hvalid hm] at h
        obtain ⟨-, rfl⟩ := Run.outcome_eq.1 h
        exact hp.paintVoid n
      · rw [run_colorBounds_nothing hvalid (by simpa using hm)] at h
        cases (Run.outcome_eq.1 h).1
    · rw [run_colorBounds_type hvalid he] at h
      obtain ⟨-, rfl⟩ := Run.outcome_eq.1 h
      exact hp.paintType n (canonical_inter hcanonical.1 hcanonical.2) he

end Interned

/-- Coloring nodes one by one keeps one node for each type. -/
theorem interned_of_forM (ht : t.Sound) {nodes : List NodeId} (hp : Interned p)
    (h : (nodes.forM (color t)).run p = (.ok (), p')) : Interned p' :=
  Run.invariant_forM (fun _ _ _ _ hq hrun => hq.color ht hrun) hp h

/-! ## Counting -/

/-- What is both shown of a node and permitted to it, reduced to one type; the empty set if that is
nothing. -/
def reducedAt (t : BoundsTable) (n : NodeId) : TypeSet :=
  ((t.shown n).inter (t.permitted n)).reduced

theorem reducedAt_eq_empty (ht : t.Sound) (n : NodeId) :
    reducedAt t n = .empty ↔ (t.shown n).inter (t.permitted n) = .empty := by
  constructor
  · intro hr
    by_contra he
    exact reduced_ne_empty (canonical_inter (ht.canonical_shown n) (ht.canonical_permitted n)) he hr
  · intro he
    rw [reducedAt, he]
    rfl

theorem tally_eq (ht : t.Sound) (stats : ColorStats) (n : NodeId) :
    tally stats ⟨t.shown n, t.permitted n⟩ = ⟨stats.colored + 1,
      stats.dynamic + if reducedAt t n = .univ then 1 else 0,
      stats.void + if reducedAt t n = .empty then 1 else 0⟩ := by
  have hreduced : ((t.shown n).inter (t.permitted n)).reduced = reducedAt t n := rfl
  rw [tally]
  simp only [← reducedAt_eq_empty ht, hreduced]
  by_cases he : reducedAt t n = .empty
  · simp [he]
  · by_cases hu : reducedAt t n = .univ <;> simp [he, hu]

/-- The counts of nodes, of those that are dynamic, and of those that are void. -/
theorem foldl_tally (ht : t.Sound) : ∀ {nodes : List NodeId},
    (∀ n ∈ nodes, t.of? n = some ⟨t.shown n, t.permitted n⟩) → ∀ stats,
      (nodes.filterMap t.of?).foldl tally stats =
        ⟨stats.colored + nodes.length,
          stats.dynamic + nodes.countP fun n => reducedAt t n = .univ,
          stats.void + nodes.countP fun n => reducedAt t n = .empty⟩
  | [], _, _ => rfl
  | n :: ns, hnodes, stats => by
    obtain ⟨hn, hns⟩ := List.forall_mem_cons.1 hnodes
    rw [List.filterMap_cons_some hn, List.foldl_cons, tally_eq ht, foldl_tally ht hns,
      List.countP_cons, List.countP_cons, List.length_cons]
    simp only [decide_eq_true_eq, ColorStats.mk.injEq]
    omega

end Palette

end TypeFlow
