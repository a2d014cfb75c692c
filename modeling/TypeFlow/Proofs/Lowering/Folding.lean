import TypeFlow.Proofs.Graph.Limbs
import TypeFlow.Proofs.Lowering.Precedence
import TypeFlow.Proofs.Lowering.Sequence
import TypeFlow.Proofs.Rule.Fixpoint
/-!
# Operator sequences become ordered trees

For a sequence that can be read, the draft of the rule climbs as `OperatorTree.climb` does: after
each step the trees that wait stand in the graph, over operands of the sequence and new nodes, and
nothing else has changed (`Halfway`). At last the place of the sequence goes to the root of one
tree, while a sequence that cannot be read changes nothing (`fold_operators`).
-/

namespace TypeFlow

namespace Lowering

open TypeFlow.Graph

variable {g h h' : Graph} {n m x y root : NodeId} {op : BinaryOp} {tree : OperatorTree}
  {first : NodeId} {rest : List (BinaryOp × NodeId)} {made xs : List NodeId} {fault : Fault}

/-! ## Trees in a graph -/

/-- A tree stands in a graph below a node: an operand is itself, and an operator is a node that has
its two operands and nothing else. The list has the nodes of the operators from left to right. -/
inductive Stands (h : Graph) : OperatorTree → NodeId → List NodeId → Prop
  | operand {x : NodeId} (hx : h.has x) : Stands h (.operand x) x []
  | binary {op : BinaryOp} {l r : OperatorTree} {m a b : NodeId} {ls rs : List NodeId}
      (hkind : h.kind m = .expr (.binary op)) (hpayload : h.payload m = .none)
      (hout : h.outgoing m = [⟨.left, a⟩, ⟨.right, b⟩]) (hleft : Stands h l a ls)
      (hright : Stands h r b rs) : Stands h (.binary op l r) m (ls ++ m :: rs)

/-- A node is the same in both graphs. -/
def SameAt (h h' : Graph) (m : NodeId) : Prop :=
  h'.kind m = h.kind m ∧ h'.payload m = h.payload m ∧ h'.outgoing m = h.outgoing m

namespace Stands

theorem has_root (ht : Stands h tree root made) : h.has root := by
  cases ht with
  | operand hx => exact hx
  | binary hkind => exact has_of_kind hkind nofun

/-- A tree stands as long as the nodes of its operators stay the same. -/
theorem mono (ht : Stands h tree root made) (hhas : ∀ m, h.has m → h'.has m)
    (hsame : ∀ m ∈ made, SameAt h h' m) : Stands h' tree root made := by
  induction ht with
  | operand hx => exact .operand (hhas _ hx)
  | @binary op l r m a b ls rs hkind hpayload hout _ _ ihl ihr =>
    obtain ⟨hkind', hpayload', hout'⟩ := hsame m (by simp)
    exact .binary (hkind'.trans hkind) (hpayload'.trans hpayload) (hout'.trans hout)
      (ihl fun m hm => hsame m (by simp [hm])) (ihr fun m hm => hsame m (by simp [hm]))

/-- The root of a tree is an operand or one of its nodes. -/
theorem root_mem (ht : Stands h tree root made) :
    root ∈ made ∨ .inl root ∈ tree.reading := by
  cases ht with
  | operand => exact Or.inr List.mem_cons_self
  | binary => exact Or.inl (by simp)

/-- The nodes of a tree lead to such nodes again or to operands. -/
theorem target_mem (ht : Stands h tree root made) : ∀ m ∈ made, ∀ e ∈ h.outgoing m,
    e.node ∈ made ∨ .inl e.node ∈ tree.reading := by
  induction ht with
  | operand => nofun
  | @binary op l r m a b ls rs hkind hpayload hout hleft hright ihl ihr =>
    have hl : ∀ {z}, z ∈ ls ∨ .inl z ∈ l.reading →
        z ∈ ls ++ m :: rs ∨ .inl z ∈ (OperatorTree.binary op l r).reading :=
      Or.imp (by simp +contextual) (by simp +contextual [OperatorTree.reading])
    have hr : ∀ {z}, z ∈ rs ∨ .inl z ∈ r.reading →
        z ∈ ls ++ m :: rs ∨ .inl z ∈ (OperatorTree.binary op l r).reading :=
      Or.imp (by simp +contextual) (by simp +contextual [OperatorTree.reading])
    intro k hk e he
    rcases List.mem_append.1 hk with hk | hk
    · exact hl (ihl k hk e he)
    · rcases List.mem_cons.1 hk with rfl | hk
      · rw [hout] at he
        rcases List.mem_pair.1 he with rfl | rfl
        · exact hl hleft.root_mem
        · exact hr hright.root_mem
      · exact hr (ihr k hk e he)

/-- There are as many nodes as operators. -/
theorem length_made (ht : Stands h tree root made) :
    made.length = tree.reading.countP Sum.isRight := by
  induction ht with
  | operand => rfl
  | binary _ _ _ _ _ ihl ihr =>
    simp only [OperatorTree.reading, List.length_append, List.length_cons, List.countP_append,
      List.countP_cons, ihl, ihr, Sum.isRight_inr, if_true]

end Stands

/-- The trees that wait stand below the handles that wait. -/
inductive AllStand (g h : Graph) :
    List (Handle × BinaryOp) → List (OperatorTree × BinaryOp) → List NodeId → Prop
  | nil : AllStand g h [] [] []
  | cons {a : Handle} {l : OperatorTree} {op : BinaryOp} {pending : List (Handle × BinaryOp)}
      {trees : List (OperatorTree × BinaryOp)} {made ls : List NodeId}
      (hleft : Stands h l (a.at g) ls) (hrest : AllStand g h pending trees made) :
      AllStand g h ((a, op) :: pending) ((l, op) :: trees) (made ++ ls)

theorem AllStand.mono {pending : List (Handle × BinaryOp)} {trees : List (OperatorTree × BinaryOp)}
    (ht : AllStand g h pending trees made) (hhas : ∀ m, h.has m → h'.has m)
    (hsame : ∀ m ∈ made, SameAt h h' m) : AllStand g h' pending trees made := by
  induction ht with
  | nil => exact .nil
  | cons hleft _ ih =>
    exact .cons (hleft.mono hhas fun m hm => hsame m (List.mem_append_right _ hm))
      (ih fun m hm => hsame m (List.mem_append_left _ hm))

/-! ## Steps of the draft -/

/-- A graph that has some new nodes and is the same at all others. -/
structure Scaffold (g h : Graph) (count : Nat) : Prop where
  kept : h.WellKept
  size : h.size = g.size + count
  same : ∀ m, g.has m → SameAt g h m

theorem Scaffold.has {count : Nat} (hs : Scaffold g h count) (hm : g.has m) : h.has m := by
  have hsize := hs.size
  simp only [Graph.has, decide_eq_true_eq] at hm ⊢
  omega

/-- A new node over two others. -/
def withBinary (h : Graph) (k : NodeKind) (a b : NodeId) : Graph :=
  ((h.add k .none).setChild h.fresh .left a).setChild h.fresh .right b

section WithBinary

variable {k : NodeKind} {a b : NodeId}

theorem outgoing_withBinary (hh : h.WellKept) (ha : h.has a) :
    (withBinary h k a b).outgoing m =
      if m = h.fresh then [⟨.left, a⟩, ⟨.right, b⟩] else h.outgoing m := by
  have hadd := wellKept_add hh k .none
  have hfresh : (h.add k .none).has h.fresh := by simp [has_add]
  have hset : ((h.add k .none).setChild h.fresh .left a).WellKept :=
    wellKept_setChild hadd hfresh (by simp [has_add, ha]) .left
  have hnone : h.outgoing h.fresh = [] := outgoing_of_not_has has_fresh
  rw [withBinary, outgoing_setChild hset (by simpa using hfresh), outgoing_setChild hadd hfresh,
    outgoing_add]
  by_cases hm : m = h.fresh
  · simp [hm, hnone]
  · simp [hm]

theorem wellKept_withBinary (hh : h.WellKept) (ha : h.has a) (hb : h.has b) :
    (withBinary h k a b).WellKept := by
  have hadd := wellKept_add hh k .none
  have hfresh : (h.add k .none).has h.fresh := by simp [has_add]
  exact wellKept_setChild (wellKept_setChild hadd hfresh (by simp [has_add, ha]) .left)
    (by simpa using hfresh) (by simp [has_add, hb]) .right

theorem size_withBinary : (withBinary h k a b).size = h.size + 1 := by
  rw [withBinary, (sameNodes_setChild _ _ _).size, (sameNodes_setChild _ _ _).size, size_add]

theorem sameAt_withBinary (hh : h.WellKept) (ha : h.has a) (hm : h.has m) :
    SameAt h (withBinary h k a b) m := by
  have hne : m ≠ h.fresh := by
    rintro rfl
    rw [has_fresh] at hm
    cases hm
  refine ⟨?_, ?_, by rw [outgoing_withBinary hh ha, if_neg hne]⟩
  · simp [withBinary, kind_add, hne]
  · simp [withBinary, payload_add, hne]

end WithBinary

/-- The draft on its way: the trees that wait and the one read last stand in a graph that has the
nodes of their operators and is otherwise the same. -/
def Halfway (g h : Graph) (pending : List (Handle × BinaryOp))
    (trees : List (OperatorTree × BinaryOp)) (last : Handle) (tree : OperatorTree) : Prop :=
  ∃ made ls, AllStand g h pending trees made ∧ Stands h tree (last.at g) ls ∧
    Scaffold g h (made ++ ls).length ∧ (made ++ ls).Perm (g.freshIds (made ++ ls).length)

theorem freshIds_succ (count : Nat) :
    g.freshIds (count + 1) = g.freshIds count ++ [⟨g.size + count⟩] := by
  simp [freshIds, List.range_succ]

/-- New nodes are numbered behind the nodes of the graph. -/
theorem mem_freshIds {count : Nat} :
    m ∈ g.freshIds count ↔ g.size ≤ m.index ∧ m.index < g.size + count := by
  simp only [freshIds, List.mem_map, List.mem_range]
  constructor
  · rintro ⟨i, hi, rfl⟩
    exact ⟨Nat.le_add_right _ _, Nat.add_lt_add_left hi _⟩
  · rintro ⟨hle, hlt⟩
    refine ⟨m.index - g.size, by omega, ?_⟩
    rw [Nat.add_sub_cancel' hle]

section Draft

variable {pending : List (Handle × BinaryOp)} {trees : List (OperatorTree × BinaryOp)}
  {a last : Handle} {l : OperatorTree}

theorem Scaffold.trans {count count' : Nat} (hs : Scaffold g h count)
    (hs' : Scaffold h h' count') : Scaffold g h' (count + count') where
  kept := hs'.kept
  size := by rw [hs'.size, hs.size, Nat.add_assoc]
  same m hm := by
    obtain ⟨hkind, hpayload, hout⟩ := hs.same m hm
    obtain ⟨hkind', hpayload', hout'⟩ := hs'.same m (hs.has hm)
    exact ⟨hkind'.trans hkind, hpayload'.trans hpayload, hout'.trans hout⟩

theorem scaffold_withBinary {k : NodeKind} {x y : NodeId} (hh : h.WellKept) (hx : h.has x)
    (hy : h.has y) : Scaffold h (withBinary h k x y) 1 :=
  ⟨wellKept_withBinary hh hx hy, size_withBinary, fun _ hm => sameAt_withBinary hh hx hm⟩

/-- A tree that waits and the one read last become one, below the next new node. -/
theorem Halfway.withBinary {c : Handle} (hc : c.at g = h.fresh)
    (hs : Halfway g h ((a, op) :: pending) ((l, op) :: trees) last tree) :
    h.has (a.at g) ∧ h.has (last.at g) ∧
      Halfway g (withBinary h (.expr (.binary op)) (a.at g) (last.at g)) pending trees c
        (.binary op l tree) := by
  obtain ⟨_, rs, hall, hright, hscaffold, hperm⟩ := hs
  cases hall with
  | @cons _ _ _ _ _ made ls hleft hrest =>
  have ha := hleft.has_root
  have hkept := hscaffold.kept
  refine ⟨ha, hright.has_root, made, ls ++ h.fresh :: rs, ?_⟩
  have hadds := scaffold_withBinary (k := .expr (.binary op)) hkept ha hright.has_root
  have hhas := fun m (hm : h.has m) => hadds.has hm
  have hsame : ∀ m ∈ made ++ ls ++ rs,
      SameAt h (Lowering.withBinary h (.expr (.binary op)) (a.at g) (last.at g)) m := fun m hm => by
    have hrange := mem_freshIds.1 (hperm.mem_iff.1 hm)
    rw [← hscaffold.size] at hrange
    exact hadds.same m (decide_eq_true hrange.2)
  have hlength : (made ++ (ls ++ h.fresh :: rs)).length = (made ++ ls ++ rs).length + 1 := by
    simp only [List.length_append, List.length_cons]
    omega
  refine ⟨hrest.mono hhas fun m hm => hsame m (by simp [hm]), ?_, ?_, ?_⟩
  · rw [hc]
    refine .binary ?_ ?_ ?_ (hleft.mono hhas fun m hm => hsame m (by simp [hm]))
      (hright.mono hhas fun m hm => hsame m (by simp [hm]))
    · simp [Lowering.withBinary, kind_add]
    · simp [Lowering.withBinary, payload_add]
    · rw [outgoing_withBinary hkept ha, if_pos rfl]
  · rw [hlength]
    exact hscaffold.trans hadds
  · have hnext : h.fresh = ⟨g.size + (made ++ ls ++ rs).length⟩ := by
      rw [← hscaffold.size]
      rfl
    rw [hlength, freshIds_succ, ← hnext, ← List.append_assoc]
    exact (List.perm_middle.trans (List.perm_append_singleton _ _).symm).trans
      (hperm.append_right [h.fresh])

/-- The innermost operator that waits is closed. -/
theorem Halfway.yields_combine
    (hs : Halfway g h ((a, op) :: pending) ((l, op) :: trees) last tree) :
    Draft.Yields g (combine op a last) h fun c h' =>
      Halfway g h' pending trees c (.binary op l tree) := by
  unfold combine
  refine (Draft.yields_node fun c hc => ?_).bind
  obtain ⟨ha, hlast, hnext⟩ := hs.withBinary hc
  refine (Draft.yields_edit (by simp [Edit.at, Mutation.names, has_add, hc, ha]) ?_).bind
  refine (Draft.yields_edit (by simp [Edit.at, Mutation.names, mutate, has_add, hc, hlast]) ?_).bind
  refine Draft.yields_pure ?_
  simp only [Edit.at, mutate, hc]
  exact hnext

theorem Halfway.pending_eq_nil_iff {pending : List (Handle × BinaryOp)}
    {trees : List (OperatorTree × BinaryOp)} {last : Handle}
    (hs : Halfway g h pending trees last tree) : pending = [] ↔ trees = [] := by
  obtain ⟨_, _, hall, _⟩ := hs
  cases hall <;> simp

/-- Closing the operators that wait. -/
theorem Halfway.yields_close (strength : Nat) : ∀ {pending : List (Handle × BinaryOp)}
    {trees : List (OperatorTree × BinaryOp)} {last : Handle} {tree : OperatorTree} {h : Graph},
    Halfway g h pending trees last tree →
    Draft.Yields g (close strength pending last) h fun answer h' =>
      Halfway g h' answer.1 (OperatorTree.close strength trees tree).1 answer.2
        (OperatorTree.close strength trees tree).2
  | [], trees, last, tree, h, hs => by
    obtain rfl := hs.pending_eq_nil_iff.1 rfl
    exact Draft.yields_pure hs
  | (a, op) :: pending, trees, last, tree, h, hs => by
    have ⟨_, _, hall, _⟩ := hs
    cases hall with
    | @cons _ l _ _ trees made ls hleft hrest =>
    rw [close, OperatorTree.close]
    split
    · exact (hs.yields_combine.mono fun c h' hs' => hs'.yields_close strength).bind
    · exact Draft.yields_pure hs

/-- Climbing on from an operand. -/
theorem Halfway.yields_climb : ∀ {rest : List (BinaryOp × NodeId)}
    {pending : List (Handle × BinaryOp)} {trees : List (OperatorTree × BinaryOp)} {last : Handle}
    {x : NodeId} {h : Graph}, Halfway g h pending trees last (.operand x) →
    (∀ y ∈ rest.map Prod.snd, g.has y) →
    Draft.Yields g (climb pending last rest) h fun c h' =>
      Halfway g h' [] [] c (OperatorTree.climb trees x rest)
  | [], pending, trees, last, x, h, hs, _ => by
    rw [climb, OperatorTree.climb]
    refine ((hs.yields_close 0).mono fun answer h' hs' => ?_).bind
    rw [OperatorTree.close_zero] at hs' ⊢
    refine Draft.yields_pure ?_
    obtain ⟨left, root⟩ := answer
    obtain rfl : left = [] := hs'.pending_eq_nil_iff.2 rfl
    exact hs'
  | (op, y) :: rest, pending, trees, last, x, h, hs, hrest => by
    obtain ⟨hy, hrest⟩ := List.forall_mem_cons.1 hrest
    rw [climb, OperatorTree.climb]
    refine ((hs.yields_close op.precedence).mono fun answer h' hs' => ?_).bind
    refine yields_climb ?_ hrest
    obtain ⟨made, ls, hall, hlast, hscaffold, hperm⟩ := hs'
    refine ⟨made ++ ls, [], .cons hlast hall, .operand (hscaffold.has hy), ?_, ?_⟩
    · rwa [List.append_nil]
    · rwa [List.append_nil]

end Draft

/-! ## Giving up the place -/

theorem outgoing_retire (hg : g.Balanced) (hback : ∀ e ∈ g.outgoing root, e.node ≠ n)
    (m : NodeId) : ((g.replace n root).detach n).outgoing m =
      if m = n then [] else (g.outgoing m).map (Edge.redirect n root) := by
  rw [detach, outgoing_removeWhere, outgoing_replace_of_apart hg hback]
  simp

/-- What folding makes of a graph. A tree stands below a root over as many new nodes as there are
operators, and no others are new. What pointed at the sequence from elsewhere points at the root,
with the same role and in the same place, the sequence has nothing left, and nothing else
changes. -/
structure Folds (g : Graph) (n : NodeId) (count : Nat) (tree : OperatorTree) (root : NodeId)
    (g' : Graph) : Prop where
  kept : g'.WellKept
  size : g'.size = g.size + count
  stands : ∃ made, Stands g' tree root made ∧ made.Perm (g.freshIds count)
  kind : ∀ m, g.has m → g'.kind m = g.kind m
  payload : ∀ m, g.has m → g'.payload m = g.payload m
  outgoing : ∀ m, g.has m → m ≠ n → g'.outgoing m = (g.outgoing m).map (Edge.redirect n root)
  bare : g'.outgoing n = []

/-- A tree over operands that do not point at the sequence takes its place. -/
theorem Halfway.folds {c : Handle} (hn : g.has n) (hs : Halfway g h [] [] c tree)
    (hoperands : ∀ x, .inl x ∈ tree.reading →
      g.has x ∧ x ≠ n ∧ ∀ e ∈ g.outgoing x, e.node ≠ n) :
    h.has n ∧ h.has (c.at g) ∧ Folds g n (tree.reading.countP Sum.isRight) tree (c.at g)
      ((h.replace n (c.at g)).detach n) := by
  obtain ⟨_, made, hall, hstands, hscaffold, hperm⟩ := hs
  cases hall
  rw [List.nil_append] at hscaffold hperm
  rw [← hstands.length_made]
  -- neither an operand nor a new node is the sequence
  have hapart : ∀ {x}, x ∈ made ∨ .inl x ∈ tree.reading → x ≠ n := by
    rintro x (hx | hx) rfl
    · have hnew := (mem_freshIds.1 (hperm.mem_iff.1 hx)).1
      exact absurd hn (by simpa [Graph.has] using hnew)
    · exact (hoperands x hx).2.1 rfl
  have htargets : ∀ m ∈ made, ∀ e ∈ h.outgoing m, e.node ≠ n := fun m hm e he =>
    hapart (hstands.target_mem m hm e he)
  have hback : ∀ e ∈ h.outgoing (c.at g), e.node ≠ n := by
    rcases hstands.root_mem with hroot | hroot
    · exact htargets _ hroot
    · obtain ⟨hhas, -, hnone⟩ := hoperands _ hroot
      rw [(hscaffold.same _ hhas).2.2]
      exact hnone
  have hkept := hscaffold.kept
  have hout := outgoing_retire hkept.balanced hback
  have hnodes : SameNodes h ((h.replace n (c.at g)).detach n) :=
    (sameNodes_replace _ _).trans (sameNodes_removeWhere _ _)
  refine ⟨hscaffold.has hn, hstands.has_root, ?_, hnodes.size.trans hscaffold.size,
    ⟨made, ?_, hperm⟩, fun m hm => (hnodes.kind m).trans (hscaffold.same m hm).1,
    fun m hm => (hnodes.payload m).trans (hscaffold.same m hm).2.1, fun m hm hne => ?_, ?_⟩
  · exact wellKept_removeWhere (wellKept_replace hkept hstands.has_root) _
  · refine hstands.mono (fun m hm => (has_congr hnodes.size).trans hm) fun m hm =>
      ⟨hnodes.kind m, hnodes.payload m, ?_⟩
    rw [hout, if_neg (hapart (Or.inl hm))]
    refine (List.map_congr_left fun e he => ?_).trans (List.map_id _)
    exact if_neg (htargets m hm e he)
  · rw [hout, if_neg hne, (hscaffold.same m hm).2.2]
  · rw [hout, if_pos rfl]

/-! ## The rule -/

/-- A sequence from left to right. -/
def written (first : NodeId) (rest : List (BinaryOp × NodeId)) : List (NodeId ⊕ BinaryOp) :=
  .inl first :: rest.flatMap fun q => [.inr q.1, .inl q.2]

theorem mem_written : .inl x ∈ written first rest ↔ x ∈ first :: rest.map Prod.snd := by
  simp [written]

theorem countP_written (first : NodeId) (rest : List (BinaryOp × NodeId)) :
    (written first rest).countP Sum.isRight = rest.length := by
  simp only [written, List.countP_cons, Sum.isRight_inl, Bool.false_eq_true, if_false]
  induction rest with
  | nil => rfl
  | cons q rest ih => simpa [List.countP_cons] using ih

/-- The tree that a sequence folds into. -/
def folded (first : NodeId) (rest : List (BinaryOp × NodeId)) : OperatorTree :=
  OperatorTree.climb [] first rest

theorem reading_folded (first : NodeId) (rest : List (BinaryOp × NodeId)) :
    (folded first rest).reading = written first rest :=
  OperatorTree.reading_climb rest [] first

theorem ordered_folded (first : NodeId) (rest : List (BinaryOp × NodeId)) :
    (folded first rest).Ordered :=
  OperatorTree.ordered_climb rest trivial

/-- Committing the patch folds the sequence. -/
theorem run_foldPatch (hg : g.WellKept) (hn : g.has n) (h : Spells g (g.items n) first rest)
    (hapart : ∀ x ∈ first :: rest.map Prod.snd, ∀ e ∈ g.outgoing x, e.node ≠ n) :
    ∃ g' root, (Graph.commit (foldPatch n first rest)).run g = (.ok (), g') ∧
      Folds g n rest.length (folded first rest) root g' := by
  have hitem : ∀ x ∈ first :: rest.map Prod.snd, ∃ r, ⟨r, x⟩ ∈ g.outgoing n := fun x hx => by
    obtain ⟨r, -, he⟩ := mem_items.1 (h.mem x hx)
    exact ⟨r, he⟩
  have hhas : ∀ x ∈ first :: rest.map Prod.snd, g.has x := fun x hx => by
    obtain ⟨r, he⟩ := hitem x hx
    exact hg.has_target he
  have hoperands : ∀ x, .inl x ∈ (folded first rest).reading →
      g.has x ∧ x ≠ n ∧ ∀ e ∈ g.outgoing x, e.node ≠ n := by
    intro x hx
    rw [reading_folded, mem_written] at hx
    refine ⟨hhas x hx, ?_, hapart x hx⟩
    rintro rfl
    obtain ⟨r, he⟩ := hitem x hx
    exact hapart x hx _ he rfl
  have hstart : Halfway g g [] [] (.old first) (.operand first) :=
    ⟨[], [], .nil, .operand (hhas first List.mem_cons_self),
      ⟨hg, rfl, fun _ _ => ⟨rfl, rfl, rfl⟩⟩, List.Perm.nil⟩
  have hyields : Draft.Yields g (do
      let root ← climb [] first rest
      Draft.retire n root) g fun _ g' => ∃ root,
        Folds g n rest.length (folded first rest) root g' := by
    refine ((hstart.yields_climb fun y hy => hhas y (List.mem_cons_of_mem _ hy)).mono
      fun c h' hs => ?_).bind
    obtain ⟨hn', hc, hfolds⟩ := hs.folds hn hoperands
    have hkeep : (h'.replace n (c.at g)).has n :=
      (has_congr (sameNodes_replace _ _).size).trans hn'
    refine (Draft.yields_edit (by simp [Edit.at, Mutation.names, hn', hc]) ?_).bind
    refine Draft.yields_edit (by simpa [Edit.at, Mutation.names, mutate] using hkeep) ?_
    refine ⟨c.at g, ?_⟩
    rw [← countP_written first rest, ← reading_folded]
    exact hfolds
  obtain ⟨g', hrun, -, root, hfolds⟩ := hyields.run_commit hg.balanced
  exact ⟨g', root, hrun, hfolds⟩

/-- Folding an operator sequence. If its items are operands and the tokens of operators in turn,
the rule has a patch for it; if moreover no operand points back at the sequence, committing the
patch puts a tree in its place that reads as the items do, in which an operator binds at least as
strongly as one that it is to the left of and more strongly than one that it is to the right of; no
other tree does. All that pointed at the sequence from other nodes points at the root, and a lone
operand is the root itself. Any other items are refused, and then nothing is committed. -/
theorem fold_operators (hg : g.WellKept) (hk : g.kind n = .surface .operatorSeq)
    (hn : g.isAttached n) :
    (∀ first rest, Spells g (g.items n) first rest →
      (∃ p, foldOperators.effect g n = .ok (some p)) ∧
      ((∀ x ∈ first :: rest.map Prod.snd, ∀ e ∈ g.outgoing x, e.node ≠ n) →
        ∃ g' tree root, (foldOperators.tryAt Graph.commit n).run g = (.ok true, g') ∧
          tree.reading = written first rest ∧ tree.Ordered ∧
          (∀ other : OperatorTree, other.reading = written first rest → other.Ordered →
            other = tree) ∧
          Folds g n rest.length tree root g' ∧ (rest = [] → root = first))) ∧
    ((¬∃ first rest, Spells g (g.items n) first rest) → ∃ fault,
      foldOperators.effect g n = .error fault ∧
        (foldOperators.tryAt Graph.commit n).run g = (.error fault, g)) := by
  have happlies : foldOperators.applies g n = true := by
    simp [foldOperators, hk, hn]
  have hfire : foldOperators.fire? g n = foldOperators.effect g n := by
    rw [Rule.fire?, if_pos happlies]
  constructor
  · intro first rest h
    refine ⟨⟨_, effect_of_spells h⟩, fun hapart => ?_⟩
    obtain ⟨g', root, hrun, hfolds⟩ := run_foldPatch hg (has_of_kind hk (by decide)) h hapart
    have hordered := ordered_folded first rest
    refine ⟨g', folded first rest, root, Rule.run_tryAt_eq_ok.2 (Or.inr ⟨rfl, ?_⟩),
      reading_folded first rest, hordered, fun other hreading hother => ?_, hfolds, ?_⟩
    · exact ⟨_, hfire.trans (effect_of_spells h), hrun⟩
    · exact hother.eq_of_reading hordered (hreading.trans (reading_folded first rest).symm)
    · rintro rfl
      obtain ⟨made, hstands, -⟩ := hfolds.stands
      cases hstands
      rfl
  · intro h
    obtain ⟨fault, heffect⟩ := effect_eq_error h
    exact ⟨fault, heffect, Rule.run_tryAt_eq_error.2 (Or.inl ⟨hfire.trans heffect, rfl⟩)⟩

/-- A block with the sequence `a - b * c - d < e`. -/
def mixedChanges : List Change :=
  [.single (.add (.stmt .block) .none), .single (.add (.surface .operatorSeq) .none),
    .single (.add (.expr .ident) (.str "a")), .single (.add (.surface .opToken) (.str "-")),
    .single (.add (.expr .ident) (.str "b")), .single (.add (.surface .opToken) (.str "*")),
    .single (.add (.expr .ident) (.str "c")), .single (.add (.surface .opToken) (.str "-")),
    .single (.add (.expr .ident) (.str "d")), .single (.add (.surface .opToken) (.str "<")),
    .single (.add (.expr .ident) (.str "e")), .single (.pushItem ⟨0⟩ ⟨1⟩)] ++
  [2, 3, 4, 5, 6, 7, 8, 9, 10].map fun x => .single (.pushItem ⟨1⟩ ⟨x⟩)

def mixed : Graph := mixedChanges.foldl change empty

/-- `((a - (b * c)) - d) < e` -/
def mixedTree : OperatorTree :=
  .binary .lt
    (.binary .sub
      (.binary .sub (.operand ⟨2⟩) (.binary .mul (.operand ⟨4⟩) (.operand ⟨6⟩)))
      (.operand ⟨8⟩))
    (.operand ⟨10⟩)

/-- Subtractions are closed to the left, and before the comparison. -/
theorem fold_operators_mixed : mixed.WellKept ∧ mixed.kind ⟨1⟩ = .surface .operatorSeq ∧
    mixed.isAttached ⟨1⟩ ∧
    Spells mixed (mixed.items ⟨1⟩) ⟨2⟩ [(.sub, ⟨4⟩), (.mul, ⟨6⟩), (.sub, ⟨8⟩), (.lt, ⟨10⟩)] ∧
    (∀ x ∈ [(⟨2⟩ : NodeId), ⟨4⟩, ⟨6⟩, ⟨8⟩, ⟨10⟩], ∀ e ∈ mixed.outgoing x, e.node ≠ ⟨1⟩) ∧
    ∃ g' root, (foldOperators.tryAt Graph.commit ⟨1⟩).run mixed = (.ok true, g') ∧
      Folds mixed ⟨1⟩ 4 mixedTree root g' := by
  have hkept : mixed.WellKept := wellKept_foldl_change mixedChanges wellKept_empty (by decide)
  have hk : mixed.kind ⟨1⟩ = .surface .operatorSeq := by decide
  have hn : mixed.isAttached ⟨1⟩ := by decide
  have hspells : Spells mixed (mixed.items ⟨1⟩) ⟨2⟩
      [(.sub, ⟨4⟩), (.mul, ⟨6⟩), (.sub, ⟨8⟩), (.lt, ⟨10⟩)] :=
    readSequence_eq_ok_iff.1 (by decide)
  have hapart : ∀ x ∈ [(⟨2⟩ : NodeId), ⟨4⟩, ⟨6⟩, ⟨8⟩, ⟨10⟩], ∀ e ∈ mixed.outgoing x,
      e.node ≠ ⟨1⟩ := by decide
  obtain ⟨g', tree, root, hrun, -, -, hone, hfolds, -⟩ :=
    ((fold_operators hkept hk hn).1 _ _ hspells).2 hapart
  have htree : mixedTree = tree := hone mixedTree (by decide)
    (by simp [mixedTree, OperatorTree.Ordered, OperatorTree.Binds, BinaryOp.precedence])
  exact ⟨hkept, hk, hn, hspells, hapart, g', root, hrun, htree ▸ hfolds⟩

/-- A block with a sequence that has one operand. The sequence points at itself, or its operand
points back at it. -/
def pointing (source : NodeId) : Graph :=
  [Change.single (.add (.stmt .block) .none), .single (.add (.surface .operatorSeq) .none),
    .single (.add (.expr .ident) (.str "a")), .single (.pushItem ⟨0⟩ ⟨1⟩),
    .single (.pushItem ⟨1⟩ ⟨2⟩), .single (.setChild source .ref ⟨1⟩)].foldl change empty

/-- An edge from a sequence to itself does not come to point at the root, and a sequence is not
refused because an operand points back at it. -/
theorem fold_operators_pointing :
    (Spells (pointing ⟨1⟩) ((pointing ⟨1⟩).items ⟨1⟩) ⟨2⟩ [] ∧
      (pointing ⟨1⟩).kind ⟨1⟩ = .surface .operatorSeq ∧ (pointing ⟨1⟩).isAttached ⟨1⟩ ∧
      (pointing ⟨1⟩).outgoing ⟨2⟩ = [] ∧ ⟨.ref, ⟨1⟩⟩ ∈ (pointing ⟨1⟩).outgoing ⟨1⟩ ∧
      ∃ g', (foldOperators.tryAt Graph.commit ⟨1⟩).run (pointing ⟨1⟩) = (.ok true, g') ∧
        g'.outgoing ⟨1⟩ = []) ∧
    (pointing ⟨2⟩).kind ⟨1⟩ = .surface .operatorSeq ∧ (pointing ⟨2⟩).isAttached ⟨1⟩ ∧
      (pointing ⟨2⟩).items ⟨1⟩ = [⟨2⟩] ∧ ⟨.ref, ⟨1⟩⟩ ∈ (pointing ⟨2⟩).outgoing ⟨2⟩ ∧
      (∃ p, foldOperators.effect (pointing ⟨2⟩) ⟨1⟩ = .ok (some p)) ∧
      ∃ g', (foldOperators.tryAt Graph.commit ⟨1⟩).run (pointing ⟨2⟩) = (.ok true, g') := by
  refine ⟨⟨readSequence_eq_ok_iff.1 (by decide), by decide, by decide, by decide, by decide, _, rfl,
    by decide⟩, by decide, by decide, by decide, by decide, ⟨_, rfl⟩, _, rfl⟩

end Lowering

end TypeFlow
