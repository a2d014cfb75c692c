import TypeFlow.Proofs.Program.Parsed
/-!
# The accounts of a draft

Each rule of lowering takes some nodes out of the tree below a form, its leaves, and builds a new
tree over them. The accounts of that work (`Ledger`) say which edges were made and which nodes are
still free: every leaf and every new node is either free or hangs by exactly one new edge, and
below a free node. `Growth` adds what became of the edges that were there before. Each kind of
step has one lemma, and a draft that ends with a single free node has built one tree.
-/

namespace TypeFlow

namespace Lowering

open TypeFlow.Graph

/-- A structural edge with its source. -/
structure Wire where
  source : NodeId
  edge : Edge
  deriving DecidableEq, Repr

variable {made : Multiset Wire} {x y z : NodeId}

/-- The edges of some wires that leave a node. -/
def sprouts (made : Multiset Wire) (x : NodeId) : Multiset Edge :=
  (made.filter (·.source = x)).map (·.edge)

/-- A node hangs below another one by some wires. -/
def Hangs (made : Multiset Wire) : NodeId → NodeId → Prop :=
  Relation.ReflTransGen fun x y => ∃ w ∈ made, w.source = x ∧ w.edge.node = y

theorem mem_sprouts {e : Edge} : e ∈ sprouts made x ↔ ⟨x, e⟩ ∈ made := by
  constructor
  · intro h
    obtain ⟨w, hw, rfl⟩ := Multiset.mem_map.1 h
    obtain ⟨hw, hx⟩ := Multiset.mem_filter.1 hw
    rwa [← hx]
  · exact fun h => Multiset.mem_map.2 ⟨_, Multiset.mem_filter.2 ⟨h, rfl⟩, rfl⟩

theorem sprouts_cons (w : Wire) : sprouts (w ::ₘ made) x =
    if w.source = x then w.edge ::ₘ sprouts made x else sprouts made x := by
  unfold sprouts
  rw [Multiset.filter_cons]
  split <;> simp

theorem Hangs.mono {made' : Multiset Wire} (h : Hangs made x y) (hle : ∀ w ∈ made, w ∈ made') :
    Hangs made' x y :=
  Relation.ReflTransGen.mono (fun _ _ ⟨w, hw, hxy⟩ => ⟨w, hle w hw, hxy⟩) x y h

/-- The nodes that a larger graph has besides. -/
def newcomers (g h : Graph) : Multiset NodeId :=
  ((List.range' g.size (h.size - g.size)).map NodeId.mk : List NodeId)

theorem mem_newcomers {g h : Graph} (hsize : g.size ≤ h.size) :
    x ∈ newcomers g h ↔ h.has x ∧ g.has x = false := by
  rcases x with ⟨i⟩
  simp only [newcomers, Multiset.mem_coe, List.mem_map, List.mem_range'_1, NodeId.mk.injEq,
    exists_eq_right, has, decide_eq_true_iff, decide_eq_false_iff_not]
  omega

theorem nodup_newcomers (g h : Graph) : (newcomers g h).Nodup :=
  Multiset.coe_nodup.2 (List.Nodup.map (fun _ _ h => NodeId.mk.inj h) List.nodup_range')

theorem newcomers_congr {g h h' : Graph} (hsize : h'.size = h.size) :
    newcomers g h' = newcomers g h := by rw [newcomers, newcomers, hsize]

theorem newcomers_add {g h : Graph} (hsize : g.size ≤ h.size) (k : NodeKind) (p : Payload) :
    newcomers g (h.add k p) = h.fresh ::ₘ newcomers g h := by
  have hsucc : (h.add k p).size - g.size = h.size - g.size + 1 := by
    rw [size_add]
    omega
  have hlast : g.size + 1 * (h.size - g.size) = h.size := by omega
  rw [newcomers, newcomers, hsucc, List.range'_concat, hlast, List.map_append]
  exact Multiset.coe_eq_coe.2 List.perm_append_comm

/-- A kind of node that lowering makes: neither a surface form nor a call. -/
def isFiller (k : NodeKind) : Bool := !k.isSurface && !Program.takesKeywords k

theorem has_mono {g h : Graph} (hsize : g.size ≤ h.size) (hx : g.has x) : h.has x := by
  simp only [has, decide_eq_true_iff] at hx ⊢
  omega

theorem ne_fresh_of_has {g : Graph} (hx : g.has x) : x ≠ g.fresh := by
  rintro rfl
  rw [has_fresh] at hx
  cases hx

/-- The accounts of a draft that makes `h` of `g`. Of the nodes of `g`, only the `busy` ones get
new edges and only the `turned` ones another kind; `made` are the new edges, and `free` those
leaves and new nodes that nothing new points at. -/
structure Ledger (g : Graph) (busy turned leaves : List NodeId) (h : Graph) (made : Multiset Wire)
    (free : Multiset NodeId) : Prop where
  size : g.size ≤ h.size
  kind : ∀ x, g.has x → h.kind x = g.kind x ∨
    x ∈ turned ∧ ∃ k, afterDot? (g.kind x) = some k ∧ h.kind x = .expr k
  payload : ∀ x, g.has x → h.payload x = g.payload x
  filler : ∀ x ∈ newcomers g h, isFiller (h.kind x)
  leaf : ∀ x ∈ leaves, g.has x
  source : ∀ w ∈ made, w.source ∈ busy ∨ w.source ∈ newcomers g h
  /-- No identifier and no call gets a receiver. -/
  receiver : ∀ w ∈ made, w.edge.role = .receiver → Program.isSegment (h.kind w.source) = false
  linear : free + made.map (·.edge.node) = leaves + newcomers g h
  rooted : ∀ x ∈ (leaves : Multiset NodeId) + newcomers g h, ∃ r ∈ free, Hangs made r x

/-- The accounts of a draft, with the structural edges that are left of those in `g`. -/
structure Growth (g : Graph) (busy turned leaves : List NodeId) (left : NodeId → List Edge)
    (h : Graph) (made : Multiset Wire) (free : Multiset NodeId) : Prop extends
    Ledger g busy turned leaves h made free where
  limbs : ∀ x, h.limbs x = limbsOf (left x) + sprouts made x
  arms : ∀ x, g.has x → x ∉ busy → h.arms x = left x

variable {g h h' : Graph} {busy turned leaves : List NodeId} {left : NodeId → List Edge}
  {free : Multiset NodeId} {a b c : NodeId} {r : Role}

namespace Ledger

theorem has_of_free (hl : Ledger g busy turned leaves h made free) (hx : x ∈ free) : h.has x := by
  have hmem : x ∈ (leaves : Multiset NodeId) + newcomers g h := by
    rw [← hl.linear]
    exact Multiset.mem_add.2 (Or.inl hx)
  rcases Multiset.mem_add.1 hmem with hx | hx
  · exact has_mono hl.size (hl.leaf x (Multiset.mem_coe.1 hx))
  · exact ((mem_newcomers hl.size).1 hx).1

/-- A new edge leads to a leaf or to a new node. -/
theorem target (hl : Ledger g busy turned leaves h made free) {w : Wire} (hw : w ∈ made) :
    w.edge.node ∈ leaves ∨ w.edge.node ∈ newcomers g h := by
  have hmem : w.edge.node ∈ (leaves : Multiset NodeId) + newcomers g h := by
    rw [← hl.linear]
    exact Multiset.mem_add.2 (Or.inr (Multiset.mem_map_of_mem _ hw))
  exact (Multiset.mem_add.1 hmem).imp_left Multiset.mem_coe.1

/-- The accounts are about nodes and new edges alone. -/
theorem congr (hl : Ledger g busy turned leaves h made free) (hsame : SameNodes h h') :
    Ledger g busy turned leaves h' made free := by
  have hnew : newcomers g h' = newcomers g h := newcomers_congr hsame.size
  refine ⟨?_, fun x hx => ?_, fun x hx => ?_, fun x hx => ?_, hl.leaf, ?_, fun w hw hrole => ?_,
    ?_, ?_⟩
  · rw [hsame.size]
    exact hl.size
  · rw [hsame.kind]
    exact hl.kind x hx
  · rw [hsame.payload]
    exact hl.payload x hx
  · rw [hsame.kind]
    exact hl.filler x (hnew ▸ hx)
  · rw [hnew]
    exact hl.source
  · rw [hsame.kind]
    exact hl.receiver w hw hrole
  · rw [hnew]
    exact hl.linear
  · rw [hnew]
    exact hl.rooted

/-- A free node becomes a child of another free node. -/
theorem attach (hl : Ledger g busy turned leaves h made (b ::ₘ free)) (ha : a ∈ free)
    (hbusy : a ∈ busy ∨ g.has a = false)
    (hr : r = .receiver → Program.isSegment (h.kind a) = false) :
    Ledger g busy turned leaves h (⟨a, ⟨r, b⟩⟩ ::ₘ made) free := by
  have hle : ∀ w ∈ made, w ∈ (⟨a, ⟨r, b⟩⟩ ::ₘ made : Multiset Wire) :=
    fun w hw => Multiset.mem_cons_of_mem hw
  refine ⟨hl.size, hl.kind, hl.payload, hl.filler, hl.leaf, fun w hw => ?_, fun w hw hrole => ?_,
    ?_, fun x hx => ?_⟩
  · rcases Multiset.mem_cons.1 hw with rfl | hw
    · have hhas := hl.has_of_free (Multiset.mem_cons_of_mem ha)
      exact hbusy.imp_right fun h => (mem_newcomers hl.size).2 ⟨hhas, h⟩
    · exact hl.source w hw
  · rcases Multiset.mem_cons.1 hw with rfl | hw
    · exact hr hrole
    · exact hl.receiver w hw hrole
  · rw [← hl.linear, Multiset.map_cons, Multiset.add_cons, Multiset.cons_add]
  · -- what hung below `b` hangs below `a` now
    obtain ⟨c, hc, hcx⟩ := hl.rooted x hx
    rcases Multiset.mem_cons.1 hc with rfl | hc
    · exact ⟨a, ha, (hcx.mono hle).head ⟨_, Multiset.mem_cons_self _ _, rfl, rfl⟩⟩
    · exact ⟨c, hc, hcx.mono hle⟩

end Ledger

theorem afterDot?_eq_some {k : NodeKind} {k' : ExprKind} : afterDot? k = some k' ↔
    k = .expr .ident ∧ k' = .fieldGet ∨ k = .expr .call ∧ k' = .methodCall := by
  constructor
  · intro h
    unfold afterDot? at h
    split at h <;> cases h
    · exact Or.inl ⟨rfl, rfl⟩
    · exact Or.inr ⟨rfl, rfl⟩
  · rintro (⟨rfl, rfl⟩ | ⟨rfl, rfl⟩) <;> rfl

theorem has_of_afterDot? {k : ExprKind} (h : afterDot? (g.kind x) = some k) : g.has x := by
  rcases afterDot?_eq_some.1 h with ⟨hk, -⟩ | ⟨hk, -⟩ <;> exact has_of_kind hk (by decide)

theorem isSegment_of_afterDot? {k : NodeKind} {k' : ExprKind} (h : afterDot? k = some k') :
    Program.isSegment (.expr k') = false := by
  rcases afterDot?_eq_some.1 h with ⟨-, rfl⟩ | ⟨-, rfl⟩ <;> rfl

/-! ## Steps -/

/-- Before the first step, the leaves are free. -/
theorem growth_refl (hleaf : ∀ x ∈ leaves, g.has x) :
    Growth g busy turned leaves g.arms g 0 leaves where
  size := le_rfl
  kind _ _ := Or.inl rfl
  payload _ _ := rfl
  filler x hx := by simp [newcomers] at hx
  leaf := hleaf
  source w hw := absurd hw (Multiset.notMem_zero w)
  receiver w hw := absurd hw (Multiset.notMem_zero w)
  linear := by simp [newcomers]
  rooted x hx := ⟨x, by simpa [newcomers] using hx, .refl⟩
  limbs x := by simp [sprouts, Graph.limbs]
  arms _ _ _ := rfl

namespace Growth

theorem has_of_source (hg : Growth g busy turned leaves left h made free) {w : Wire}
    (hw : w ∈ made) : h.has w.source := by
  have hmem : w.edge ∈ h.limbs w.source := by
    rw [hg.limbs]
    exact Multiset.mem_add.2 (Or.inr (mem_sprouts.2 hw))
  exact has_of_mem_limbs hmem

/-- A new node is free. -/
theorem add (hg : Growth g busy turned leaves left h made free) {k : NodeKind} (hk : isFiller k)
    (p : Payload) : Growth g busy turned leaves left (h.add k p) made (h.fresh ::ₘ free) := by
  have hcons := newcomers_add hg.size k p
  have hkind : ∀ x, h.has x → (h.add k p).kind x = h.kind x := by
    intro x hx
    rw [kind_add, if_neg (ne_fresh_of_has hx)]
  refine ⟨⟨?_, fun x hx => ?_, fun x hx => ?_, fun x hx => ?_, hg.leaf, fun w hw => ?_,
    fun w hw hr => ?_, ?_, fun x hx => ?_⟩, fun x => ?_, fun x hx hb => ?_⟩
  · rw [size_add]
    exact hg.size.trans (Nat.le_succ _)
  · rw [hkind x (has_mono hg.size hx)]
    exact hg.kind x hx
  · rw [payload_add, if_neg (ne_fresh_of_has (has_mono hg.size hx))]
    exact hg.payload x hx
  · rw [hcons] at hx
    rcases Multiset.mem_cons.1 hx with rfl | hx
    · rwa [kind_add, if_pos rfl]
    · rw [hkind x ((mem_newcomers hg.size).1 hx).1]
      exact hg.filler x hx
  · rw [hcons]
    exact (hg.source w hw).imp_right Multiset.mem_cons_of_mem
  · rw [hkind _ (hg.has_of_source hw)]
    exact hg.receiver w hw hr
  · rw [hcons, Multiset.cons_add, hg.linear, Multiset.add_cons]
  · rw [hcons, Multiset.add_cons] at hx
    rcases Multiset.mem_cons.1 hx with rfl | hx
    · exact ⟨_, Multiset.mem_cons_self _ _, .refl⟩
    · obtain ⟨a, ha, hax⟩ := hg.rooted x hx
      exact ⟨a, Multiset.mem_cons_of_mem ha, hax⟩
  · rw [Graph.limbs, arms_add]
    exact hg.limbs x
  · rw [arms_add]
    exact hg.arms x hx hb

/-- A free node becomes a child of another free node. -/
theorem attach (hg : Growth g busy turned leaves left h made (b ::ₘ free)) (hsame : SameNodes h h')
    (hothers : ∀ x, x ≠ a → h'.arms x = h.arms x) (ha : a ∈ free)
    (hbusy : a ∈ busy ∨ g.has a = false) (hlimbs : h'.limbs a = ⟨r, b⟩ ::ₘ h.limbs a)
    (hr : r = .receiver → Program.isSegment (h.kind a) = false) :
    Growth g busy turned leaves left h' (⟨a, ⟨r, b⟩⟩ ::ₘ made) free := by
  refine ⟨(hg.toLedger.attach ha hbusy hr).congr hsame, fun x => ?_, fun x hx hb => ?_⟩
  · rw [sprouts_cons]
    by_cases hxa : x = a
    · subst hxa
      rw [if_pos rfl, hlimbs, hg.limbs, Multiset.add_cons]
    · rw [if_neg (Ne.symm hxa), Graph.limbs, hothers x hxa]
      exact hg.limbs x
  · have hxa : x ≠ a := by
      rintro rfl
      rcases hbusy with hbusy | hbusy
      · exact hb hbusy
      · rw [hbusy] at hx
        cases hx
    rw [hothers x hxa]
    exact hg.arms x hx hb

theorem link (hg : Growth g busy turned leaves left h made (b ::ₘ free)) (ha : a ∈ free)
    (hbusy : a ∈ busy ∨ g.has a = false) (hr : r.isStructural)
    (hrec : r = .receiver → Program.isSegment (h.kind a) = false) :
    Growth g busy turned leaves left (h.link a r b) (⟨a, ⟨r.blur, b⟩⟩ ::ₘ made) free := by
  have hhas : h.has a := hg.has_of_free (Multiset.mem_cons_of_mem ha)
  refine hg.attach (sameNodes_link a r b) (fun x hx => ?_) ha hbusy ?_ fun hblur => hrec ?_
  · rw [arms_link hhas hr, if_neg hx]
  · rw [Graph.limbs, arms_link hhas hr, if_pos rfl, limbsOf_append, limbsOf_singleton, add_comm]
    rfl
  · cases r <;> first | rfl | cases hblur

/-- The edges from one node are dropped or put in anew; nothing new comes of it. -/
theorem rearm (hg : Growth g busy turned leaves left h made free) (hsame : SameNodes h h')
    (hothers : ∀ x, x ≠ a → h'.arms x = h.arms x) {es : List Edge}
    (hlimbs : h'.limbs a = limbsOf es + sprouts made a) (ha : a ∈ busy ∨ h'.arms a = es) :
    Growth g busy turned leaves (Function.update left a es) h' made free := by
  refine ⟨hg.toLedger.congr hsame, fun x => ?_, fun x hx hb => ?_⟩
  · by_cases hxa : x = a
    · subst hxa
      rw [hlimbs, Function.update_self]
    · rw [Function.update_of_ne hxa, Graph.limbs, hothers x hxa]
      exact hg.limbs x
  · by_cases hxa : x = a
    · subst hxa
      rw [Function.update_self]
      exact ha.resolve_left hb
    · rw [Function.update_of_ne hxa, hothers x hxa]
      exact hg.arms x hx hb

/-- A segment turns into what stands behind a dot. -/
theorem setKind (hg : Growth g busy turned leaves left h made free) {k : ExprKind} (ha : a ∈ turned)
    (hk : afterDot? (g.kind a) = some k) :
    Growth g busy turned leaves left (h.setKind a (.expr k)) made free := by
  have hsize : (h.setKind a (.expr k)).size = h.size := size_update _
  have hnew := newcomers_congr (g := g) hsize
  have hold : g.has a := has_of_afterDot? hk
  have hkind : ∀ x, x ≠ a → (h.setKind a (.expr k)).kind x = h.kind x := by
    intro x hx
    rw [kind_setKind, if_neg fun h => hx h.1]
  have hkind' : (h.setKind a (.expr k)).kind a = .expr k := by
    rw [kind_setKind, if_pos ⟨rfl, has_mono hg.size hold⟩]
  refine ⟨⟨?_, fun x hx => ?_, fun x hx => ?_, fun x hx => ?_, hg.leaf, fun w hw => ?_,
    fun w hw hrole => ?_, ?_, fun x hx => ?_⟩, fun x => ?_, fun x hx hb => ?_⟩
  · rw [hsize]
    exact hg.size
  · by_cases hxa : x = a
    · subst hxa
      exact Or.inr ⟨ha, k, hk, hkind'⟩
    · rw [hkind x hxa]
      exact hg.kind x hx
  · rw [payload_setKind]
    exact hg.payload x hx
  · have hxa : x ≠ a := by
      rintro rfl
      rw [hnew, mem_newcomers hg.size, hold] at hx
      cases hx.2
    rw [hkind x hxa]
    exact hg.filler x (hnew ▸ hx)
  · rw [hnew]
    exact hg.source w hw
  · by_cases hwa : w.source = a
    · rw [hwa, hkind']
      exact isSegment_of_afterDot? hk
    · rw [hkind _ hwa]
      exact hg.receiver w hw hrole
  · rw [hnew]
    exact hg.linear
  · exact hg.rooted x (hnew ▸ hx)
  · rw [Graph.limbs, arms_setKind]
    exact hg.limbs x
  · rw [arms_setKind]
    exact hg.arms x hx hb

/-- Old nodes that are not busy make nothing. -/
theorem sprouts_eq_zero (hg : Growth g busy turned leaves left h made free) (hx : g.has x)
    (hb : x ∉ busy) : sprouts made x = 0 := by
  refine Multiset.eq_zero_of_forall_notMem fun e he => ?_
  rcases hg.source _ (mem_sprouts.1 he) with h | h
  · exact hb h
  · rw [mem_newcomers hg.size, hx] at h
    cases h.2

/-- A node that is not busy loses all its edges. -/
theorem detach (hg : Growth g busy turned leaves left h made free) (hn : g.has a) (hb : a ∉ busy) :
    Growth g busy turned leaves (Function.update left a []) (h.detach a) made free := by
  have hsame : SameNodes h (h.detach a) := sameNodes_removeWhere a _
  refine hg.rearm hsame (fun x hx => ?_) ?_ (Or.inr ?_)
  · rw [arms_detach, if_neg hx]
  · rw [Graph.limbs, arms_detach, if_pos rfl, hg.sprouts_eq_zero hn hb]
    rfl
  · rw [arms_detach, if_pos rfl]

/-- A node that is no leaf gives its place to another one that it does not hold. -/
theorem replace (hg : Growth g busy turned leaves left h made free) {n m : NodeId} (hn : g.has n)
    (hleaf : n ∉ leaves) (hh : h.Balanced) (hm : ∀ e ∈ limbsOf (left m), e.node ≠ n) :
    Growth g busy turned leaves (fun x => (left x).map (Edge.redirect n m)) (h.replace n m) made
      free := by
  have hsprout : ∀ x, ∀ e ∈ sprouts made x, e.node ≠ n := by
    rintro x e he rfl
    rcases hg.target (mem_sprouts.1 he) with h | h
    · exact hleaf h
    · rw [mem_newcomers hg.size, hn] at h
      cases h.2
  have harms : ∀ x, (h.replace n m).arms x = (h.arms x).map (Edge.redirect n m) := by
    intro x
    refine arms_replace hh fun e he hen => ?_
    have hlimb := blur_mem_limbs he
    rw [hg.limbs] at hlimb
    rcases Multiset.mem_add.1 hlimb with hl | hl
    · exact hm _ hl hen
    · exact hsprout m _ hl hen
  refine ⟨hg.toLedger.congr (sameNodes_replace n m), fun x => ?_, fun x hx hb => ?_⟩
  · have hid : (sprouts made x).map (Edge.redirect n m) = (sprouts made x).map id :=
      Multiset.map_congr rfl fun e he => by rw [Edge.redirect, if_neg (hsprout x e he), id]
    rw [limbsOf_redirect, Graph.limbs, harms, limbsOf_redirect, ← Graph.limbs, hg.limbs,
      Multiset.map_add, hid, Multiset.map_id]
  · rw [harms, hg.arms x hx hb]

end Growth

end Lowering

end TypeFlow
