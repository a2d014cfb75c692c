import TypeFlow.Proofs.Graph.Refill
import TypeFlow.Proofs.Lowering.Chains
import TypeFlow.Proofs.Lowering.Folding
/-!
# Chains nest to the left

Each call of a pipe gets what stands before it as its first item, and each segment of a dotted
chain gets it as its receiver. A step of either draft changes one node of the chain (`Hands.cons`,
`Receives.cons`), and the nodes outside the chain stay as they are (`Spares`). At last the chain
gives up its place to the last node (`Retires`): what pointed at the chain points there, and
nothing points at the chain any more (`lower_chains`).
-/

namespace TypeFlow

namespace Lowering

open TypeFlow.Graph

variable {g h h' : Graph} {n m c s v root head base first : NodeId}
  {rest calls cs segments : List NodeId} {read : List (NodeId × ExprKind)} {k : ExprKind}
  {p : NodeId × NodeId}

/-! ## The nodes of a chain -/

/-- Each node behind the first one, after the node that stands before it. -/
def links (first : NodeId) (rest : List NodeId) : List (NodeId × NodeId) := (first :: rest).zip rest

theorem links_cons : links first (c :: cs) = (first, c) :: links c cs := rfl

theorem mem_of_links (hp : p ∈ links first rest) : p.1 ∈ first :: rest ∧ p.2 ∈ rest :=
  List.of_mem_zip hp

theorem exists_link : ∀ (first : NodeId) {rest : List NodeId}, c ∈ rest →
    ∃ v, (v, c) ∈ links first rest
  | first, x :: xs, hc => by
    rw [links_cons]
    rcases List.mem_cons.1 hc with rfl | hc
    · exact ⟨first, List.mem_cons_self⟩
    · obtain ⟨v, hv⟩ := exists_link x hc
      exact ⟨v, List.mem_cons_of_mem _ hv⟩

/-- The last node is linked to the one before it, unless it is the only one. -/
theorem eq_nil_or_last_link (first : NodeId) (rest : List NodeId) :
    rest = [] ∨ rest.getLastD first ∈ rest ∧ ∃ v, (v, rest.getLastD first) ∈ links first rest := by
  cases rest with
  | nil => exact Or.inl rfl
  | cons x xs =>
    have hmem : (x :: xs).getLastD first ∈ x :: xs := by
      rw [List.getLastD_cons]
      exact List.getLastD_mem_cons
    exact Or.inr ⟨hmem, exists_link first hmem⟩

theorem last_ne (hfirst : first ≠ n) (hrest : n ∉ rest) : rest.getLastD first ≠ n := by
  have hlast : rest.getLastD first ∈ first :: rest := List.getLastD_mem_cons
  rcases List.mem_cons.1 hlast with h | h
  · rwa [h]
  · exact fun hn => hrest (hn ▸ h)

/-- Nothing that stands before another node of a chain is a node apart from the chain. -/
theorem ne_of_links (hfirst : first ≠ n) (hrest : n ∉ rest) (hp : p ∈ links first rest) :
    p.1 ≠ n := by
  rcases List.mem_cons.1 (mem_of_links hp).1 with h | h
  · exact h ▸ hfirst
  · exact fun hn => hrest (hn ▸ h)

/-- A second graph has the same nodes and differs at some of them at most. -/
structure Spares (g h : Graph) (xs : List NodeId) : Prop where
  size : h.size = g.size
  payload : ∀ m, h.payload m = g.payload m
  kind : ∀ m, m ∉ xs → h.kind m = g.kind m
  outgoing : ∀ m, m ∉ xs → h.outgoing m = g.outgoing m

theorem Spares.refl (g : Graph) : Spares g g [] :=
  ⟨rfl, fun _ => rfl, fun _ _ => rfl, fun _ _ => rfl⟩

theorem Spares.cons (hfirst : Spares g h [c]) (hrest : Spares h h' cs) : Spares g h' (c :: cs) where
  size := hrest.size.trans hfirst.size
  payload m := (hrest.payload m).trans (hfirst.payload m)
  kind m hm := by
    obtain ⟨hc, hcs⟩ := List.ne_and_not_mem_of_not_mem_cons hm
    exact (hrest.kind m hcs).trans (hfirst.kind m (by simpa using hc))
  outgoing m hm := by
    obtain ⟨hc, hcs⟩ := List.ne_and_not_mem_of_not_mem_cons hm
    exact (hrest.outgoing m hcs).trans (hfirst.outgoing m (by simpa using hc))

theorem items_congr (hout : h.outgoing m = g.outgoing m) : h.items m = g.items m := by
  rw [items, items, itemEdges, itemEdges, hout]

/-! ## Pipes -/

/-- A value has been handed through calls: each call has what stood before it in front of its
arguments, and is otherwise the same. -/
structure Hands (g h : Graph) (value : NodeId) (calls : List NodeId) : Prop
    extends Spares g h calls where
  call : ∀ c ∈ calls, h.kind c = g.kind c
  items : ∀ p ∈ links value calls, h.items p.2 = p.1 :: g.items p.2
  others : ∀ c ∈ calls, (h.outgoing c).filter (fun e => !e.role.isItem) =
    (g.outgoing c).filter fun e => !e.role.isItem
  kept : g.WellKept → (∀ c ∈ calls, (g.items c).length < 2 ^ 32) → h.WellKept

theorem Hands.nil (g : Graph) (value : NodeId) : Hands g g value [] :=
  ⟨Spares.refl g, nofun, nofun, nofun, fun hg _ => hg⟩

/-- A call takes a value in front of its arguments, and the other calls come after it. -/
theorem Hands.cons {value : NodeId} (hc : g.has c) (hvalue : g.has value) (hcs : c ∉ cs)
    (hnext : Hands (g.withItems c (value :: g.items c)) h c cs) : Hands g h value (c :: cs) := by
  have htake := relists_withItems hc (value :: g.items c)
  have hne : ∀ d ∈ cs, d ≠ c := fun d hd h => hcs (h ▸ hd)
  have hsame : ∀ d ∈ cs, (g.withItems c (value :: g.items c)).items d = g.items d :=
    fun d hd => items_congr (htake.elsewhere d (hne d hd))
  have hspares : Spares g (g.withItems c (value :: g.items c)) [c] :=
    ⟨htake.nodes.size, htake.nodes.payload, fun m _ => htake.nodes.kind m,
      fun m hm => htake.elsewhere m (by simpa using hm)⟩
  refine ⟨hspares.cons hnext.toSpares, ?_, ?_, ?_, fun hg hroom => ?_⟩
  · refine List.forall_mem_cons.2 ⟨?_, fun d hd => (hnext.call d hd).trans (htake.nodes.kind d)⟩
    exact (hnext.kind c hcs).trans (htake.nodes.kind c)
  · rw [links_cons]
    refine List.forall_mem_cons.2 ⟨?_, fun p hp => ?_⟩
    · exact (items_congr (hnext.outgoing c hcs)).trans htake.items
    · rw [hnext.items p hp, hsame p.2 (mem_of_links hp).2]
  · refine List.forall_mem_cons.2 ⟨?_, fun d hd => ?_⟩
    · rw [hnext.outgoing c hcs, htake.others]
    · rw [hnext.others d hd, htake.elsewhere d (hne d hd)]
  · obtain ⟨hfirst, hroom⟩ := List.forall_mem_cons.1 hroom
    have hargs : ∀ a ∈ value :: g.items c, g.has a :=
      List.forall_mem_cons.2 ⟨hvalue, fun a ha => hg.has_item ha⟩
    refine hnext.kept (wellKept_withItems hg hc hargs hfirst) fun d hd => ?_
    rw [hsame d hd]
    exact hroom d hd

/-- Handing a value through calls that have not changed yet. -/
theorem yields_hand : ∀ {calls : List NodeId} {value : NodeId} {h : Graph}, h.has value →
    calls.Nodup → (∀ c ∈ calls, h.has c ∧ h.outgoing c = g.outgoing c ∧ ∀ a ∈ g.items c, h.has a) →
    Draft.Yields g (handThrough g value calls) h fun last h' =>
      last = calls.getLastD value ∧ Hands h h' value calls
  | [], value, h, _, _, _ => Draft.yields_pure ⟨rfl, Hands.nil h value⟩
  | c :: cs, value, h, hvalue, hnodup, hcalls => by
    obtain ⟨⟨hc, hout, hargs⟩, hcalls⟩ := List.forall_mem_cons.1 hcalls
    obtain ⟨hcs, hnodup⟩ := List.nodup_cons.1 hnodup
    have hshape : handThrough g value (c :: cs) = (do
        Draft.clearItems c
        (value :: g.items c).forM fun x => Draft.pushItem c x : Draft Unit) >>= fun _ =>
      handThrough g c cs := rfl
    have htake := relists_withItems hc (value :: h.items c)
    have hhas : ∀ x, (h.withItems c (value :: h.items c)).has x = h.has x :=
      fun x => has_congr htake.nodes.size
    rw [hshape]
    refine ((Draft.yields_refill hc (List.forall_mem_cons.2 ⟨hvalue, hargs⟩)).mono
      fun _ h₁ hnext => ?_).bind
    rw [← items_congr hout] at hnext
    subst hnext
    refine (yields_hand ((hhas c).trans hc) hnodup fun d hd => ?_).mono fun last h' hs => ?_
    · obtain ⟨hd', hout', hargs'⟩ := hcalls d hd
      have hdc : d ≠ c := fun h => hcs (h ▸ hd)
      exact ⟨(hhas d).trans hd', (htake.elsewhere d hdc).trans hout',
        fun a ha => (hhas a).trans (hargs' a ha)⟩
    · exact ⟨hs.1.trans List.getLastD_cons.symm, Hands.cons hc hvalue hcs hs.2⟩

/-! ## Dotted chains -/

/-- Segments have received what stood before them: each has its new kind and its receiver as its
last edge, and is otherwise the same. -/
structure Receives (g h : Graph) (base : NodeId) (read : List (NodeId × ExprKind)) : Prop
    extends Spares g h (read.map Prod.fst) where
  turned : ∀ q ∈ read, h.kind q.1 = .expr q.2
  receiver : ∀ p ∈ links base (read.map Prod.fst), h.outgoing p.2 =
    (g.outgoing p.2).filter (·.role ≠ .receiver) ++ [⟨.receiver, p.1⟩]
  items : ∀ m, h.items m = g.items m
  kept : h.WellKept

/-- A segment with its new kind and its receiver. -/
def received (g : Graph) (s : NodeId) (k : ExprKind) (base : NodeId) : Graph :=
  (g.setKind s (.expr k)).setChild s .receiver base

theorem has_received : (received g s k base).has m = g.has m := by
  rw [received, has_setChild]
  exact has_congr (size_update _)

theorem wellKept_received (hg : g.WellKept) (hs : g.has s) (hbase : g.has base) :
    (received g s k base).WellKept := by
  have hhas : ∀ x, (g.setKind s (.expr k)).has x = g.has x := fun _ => has_congr (size_update _)
  exact wellKept_setChild (wellKept_setKind hg _) ((hhas s).trans hs) ((hhas base).trans hbase) _

theorem kind_received : (received g s k base).kind m =
    if m = s ∧ g.has s then .expr k else g.kind m := by
  rw [received, kind_setChild, kind_setKind]

theorem outgoing_received (hg : g.WellKept) (hs : g.has s) :
    (received g s k base).outgoing m =
      if m = s then (g.outgoing m).filter (·.role ≠ .receiver) ++ [⟨.receiver, base⟩]
      else g.outgoing m := by
  have hhas : (g.setKind s (.expr k)).has s = g.has s := has_congr (size_update _)
  rw [received, outgoing_setChild (wellKept_setKind hg _) (hhas.trans hs), outgoing_setKind]

theorem items_received (hg : g.WellKept) (hs : g.has s) :
    (received g s k base).items m = g.items m := by
  have hhas : (g.setKind s (.expr k)).has s = g.has s := has_congr (size_update _)
  rw [received, items_setChild (wellKept_setKind hg _) (hhas.trans hs) rfl]
  exact items_congr (outgoing_setKind _)

theorem spares_received (hg : g.WellKept) (hs : g.has s) :
    Spares g (received g s k base) [s] where
  size := (sameNodes_setChild _ _ _).size.trans (size_update _)
  payload m := by rw [received, payload_setChild, payload_setKind]
  kind m hm := by rw [kind_received, if_neg fun h => hm (by simp [h.1])]
  outgoing m hm := by rw [outgoing_received hg hs, if_neg (by simpa using hm)]

/-- A segment receives what stands before it, and the other segments come after it. -/
theorem Receives.cons (hg : g.WellKept) (hs : g.has s) (hrest : s ∉ read.map Prod.fst)
    (hnext : Receives (received g s k base) h s read) : Receives g h base ((s, k) :: read) := by
  have hne : ∀ t ∈ read.map Prod.fst, t ≠ s := fun t ht h => hrest (h ▸ ht)
  refine ⟨(spares_received hg hs).cons hnext.toSpares, ?_, ?_,
    fun m => (hnext.items m).trans (items_received hg hs), hnext.kept⟩
  · refine List.forall_mem_cons.2 ⟨?_, hnext.turned⟩
    rw [hnext.kind s hrest, kind_received, if_pos ⟨rfl, hs⟩]
  · rw [List.map_cons, links_cons]
    refine List.forall_mem_cons.2 ⟨?_, fun p hp => ?_⟩
    · rw [hnext.outgoing s hrest, outgoing_received hg hs, if_pos rfl]
    · rw [hnext.receiver p hp, outgoing_received hg hs, if_neg (hne p.2 (mem_of_links hp).2)]

theorem yields_receive : ∀ {read : List (NodeId × ExprKind)} {base : NodeId} {h : Graph},
    h.WellKept → h.has base → (read.map Prod.fst).Nodup → (∀ q ∈ read, h.has q.1) →
    Draft.Yields g (receiveThrough base read) h fun last h' =>
      last = (read.map Prod.fst).getLastD base ∧ Receives h h' base read
  | [], base, h, hh, _, _, _ =>
    Draft.yields_pure ⟨rfl, Spares.refl h, nofun, nofun, fun _ => rfl, hh⟩
  | (s, k) :: read, base, h, hh, hbase, hnodup, hread => by
    obtain ⟨hs, hread⟩ := List.forall_mem_cons.1 hread
    rw [List.map_cons, List.nodup_cons] at hnodup
    have hhas : ∀ x, (h.setKind s (.expr k)).has x = h.has x := fun _ => has_congr (size_update _)
    rw [receiveThrough]
    refine (Draft.yields_edit (by simpa [Edit.at, Mutation.names] using hs) ?_).bind
    refine (Draft.yields_edit (by simp [Edit.at, Mutation.names, mutate, hhas, hs, hbase]) ?_).bind
    refine (yields_receive (wellKept_received hh hs hbase) (has_received.trans hs) hnodup.2
      fun q hq => has_received.trans (hread q hq)).mono fun last h' hr => ?_
    exact ⟨hr.1.trans List.getLastD_cons.symm, Receives.cons hh hs hnodup.1 hr.2⟩

/-! ## The place of a chain -/

/-- A node has given up its place to another one. What pointed at it points there instead, with the
same role and in the same place, and no edge leads from it or to it. -/
structure Retires (g : Graph) (n root : NodeId) (h : Graph) : Prop where
  nodes : SameNodes g h
  outgoing : ∀ m, m ≠ n → h.outgoing m = (g.outgoing m).map (Edge.redirect n root)
  bare : h.outgoing n = []
  lone : h.incoming n = []

theorem retires (hg : g.Balanced) (hroot : g.has root) (hne : root ≠ n)
    (hback : ∀ e ∈ g.outgoing root, e.node ≠ n) :
    Retires g n root ((g.replace n root).detach n) := by
  have hout := outgoing_retire hg hback
  have hbalanced : ((g.replace n root).detach n).Balanced :=
    balanced_removeWhere (balanced_replace hg hroot) _
  refine ⟨(sameNodes_replace n root).trans (sameNodes_removeWhere n _),
    fun m hm => by rw [hout, if_neg hm], by rw [hout, if_pos rfl], ?_⟩
  -- an edge to the node that is left would have been turned
  refine List.eq_nil_iff_forall_not_mem.2 fun e he => ?_
  have he : (⟨e.role, n⟩ : Edge) ∈ ((g.replace n root).detach n).outgoing e.node :=
    hbalanced.mem_iff.2 he
  rw [hout] at he
  split at he
  · cases he
  · obtain ⟨f, -, hf⟩ := List.mem_map.1 he
    have hnode := congrArg Edge.node hf
    rw [Edge.node_redirect] at hnode
    split at hnode
    · exact hne hnode
    · next hother => exact hother hnode

theorem yields_retires (hn : h.has n) (hroot : h.has root) (hne : root ≠ n)
    (hback : ∀ e ∈ h.outgoing root, e.node ≠ n) :
    Draft.Yields g (Draft.retire n root) h fun _ h' =>
      Retires h n root h' ∧ (h.WellKept → h'.WellKept) := by
  refine Draft.yields_of_balanced fun hbalanced => ?_
  have hkeep : (h.replace n root).has n = h.has n := has_congr (sameNodes_replace _ _).size
  refine (Draft.yields_edit (by simp [Edit.at, Mutation.names, hn, hroot]) ?_).bind
  refine Draft.yields_edit (by simpa [Edit.at, Mutation.names, mutate, hkeep] using hn) ?_
  exact ⟨retires hbalanced hroot hne hback,
    fun hh => wellKept_removeWhere (wellKept_replace hh hroot) _⟩

/-- What lowering a chain makes of a graph, outside the nodes behind the first. All that pointed at
the chain from other nodes points at the last node, with the same role and in the same place. No
edge leads from the chain or to it any more, and nothing else changes. -/
structure Nests (g : Graph) (n first : NodeId) (rest : List NodeId) (h : Graph) : Prop where
  size : h.size = g.size
  payload : ∀ m, h.payload m = g.payload m
  kind : ∀ m, m ∉ rest → h.kind m = g.kind m
  outgoing : ∀ m, m ∉ rest → m ≠ n →
    h.outgoing m = (g.outgoing m).map (Edge.redirect n (rest.getLastD first))
  bare : h.outgoing n = []
  lone : h.incoming n = []

theorem Spares.nests (hs : Spares g h rest) (hr : Retires h n (rest.getLastD first) h') :
    Nests g n first rest h' where
  size := hr.nodes.size.trans hs.size
  payload m := (hr.nodes.payload m).trans (hs.payload m)
  kind m hm := (hr.nodes.kind m).trans (hs.kind m hm)
  outgoing m hm hne := by rw [hr.outgoing m hne, hs.outgoing m hm]
  bare := hr.bare
  lone := hr.lone

/-- What lowering a pipe makes of a graph. Each call has what stood before it in front of its
arguments, and its other edges are those that it had. -/
structure NestsCalls (g : Graph) (n head : NodeId) (calls : List NodeId) (h : Graph) : Prop
    extends Nests g n head calls h where
  call : ∀ c ∈ calls, h.kind c = .expr .call
  items : ∀ p ∈ links head calls, h.items p.2 =
    p.1 :: (g.items p.2).map fun x => if x = n then calls.getLastD head else x
  others : ∀ c ∈ calls, (h.outgoing c).filter (fun e => !e.role.isItem) =
    ((g.outgoing c).filter fun e => !e.role.isItem).map (Edge.redirect n (calls.getLastD head))
  kept : (∀ c ∈ calls, (g.items c).length < 2 ^ 32) → h.WellKept

/-- What lowering a dotted chain makes of a graph. Each name becomes a field that is read and each
call the call of a method, with what stood before it as the receiver; its other edges are those
that it had. -/
structure NestsSegments (g : Graph) (n base : NodeId) (segments : List NodeId) (h : Graph) : Prop
    extends Nests g n base segments h where
  field : ∀ s ∈ segments, g.kind s = .expr .ident → h.kind s = .expr .fieldGet
  method : ∀ s ∈ segments, g.kind s = .expr .call → h.kind s = .expr .methodCall
  receiver : ∀ p ∈ links base segments, h.child? p.2 .receiver = some p.1
  items : ∀ s ∈ segments, h.items s =
    (g.items s).map fun x => if x = n then segments.getLastD base else x
  others : ∀ s ∈ segments, (h.outgoing s).filter (·.role ≠ .receiver) =
    ((g.outgoing s).filter (·.role ≠ .receiver)).map (Edge.redirect n (segments.getLastD base))
  kept : h.WellKept

/-! ## From the drafts to the graphs -/

theorem filter_map_redirect (q : Role → Bool) (edges : List Edge) :
    (edges.map (Edge.redirect n root)).filter (fun e => q e.role) =
      (edges.filter fun e => q e.role).map (Edge.redirect n root) := by
  have hrole : (fun e : Edge => q e.role) ∘ Edge.redirect n root = fun e => q e.role := by
    funext e
    simp
  rw [List.filter_map, hrole]

theorem Retires.items (hr : Retires g n root h) (hm : m ≠ n) :
    h.items m = (g.items m).map fun x => if x = n then root else x :=
  items_of_redirect (arms_of_redirect (hr.outgoing m hm))

/-- The last node still does not point at the pipe when the value has been handed through. -/
theorem Hands.not_back (hs : Hands g h head calls) (hhead : head ≠ n) (hn : n ∉ calls)
    (hback : ∀ e ∈ g.outgoing (calls.getLastD head), e.node ≠ n) :
    ∀ e ∈ h.outgoing (calls.getLastD head), e.node ≠ n := by
  rcases eq_nil_or_last_link head calls with hnil | ⟨hlast, v, hv⟩
  · rwa [hs.outgoing _ (by simp [hnil])]
  · intro e he
    cases hitem : e.role.isItem with
    | true =>
      have hmem := mem_items.2 ⟨e.role, hitem, he⟩
      rw [hs.items _ hv] at hmem
      rcases List.mem_cons.1 hmem with h | h
      · exact h ▸ ne_of_links hhead hn hv
      · obtain ⟨r, -, hold⟩ := mem_items.1 h
        exact hback ⟨r, e.node⟩ hold
    | false =>
      have hother : e ∈ (h.outgoing (calls.getLastD head)).filter fun e => !e.role.isItem :=
        List.mem_filter.2 ⟨he, by rw [hitem]; rfl⟩
      rw [hs.others _ hlast] at hother
      exact hback e (List.mem_filter.1 hother).1

theorem Hands.nestsCalls (hs : Hands g h head calls) (hcall : ∀ c ∈ calls, g.kind c = .expr .call)
    (hhead : head ≠ n) (hn : n ∉ calls) (hg : g.WellKept)
    (hr : Retires h n (calls.getLastD head) h') (hkept : h.WellKept → h'.WellKept) :
    NestsCalls g n head calls h' := by
  have hne : ∀ c ∈ calls, c ≠ n := fun c hc h => hn (h ▸ hc)
  refine ⟨hs.toSpares.nests hr, fun c hc => ?_, fun p hp => ?_, fun c hc => ?_,
    fun hroom => hkept (hs.kept hg hroom)⟩
  · rw [hr.nodes.kind, hs.call c hc, hcall c hc]
  · rw [hr.items (hne p.2 (mem_of_links hp).2), hs.items p hp, List.map_cons,
      if_neg (ne_of_links hhead hn hp)]
  · rw [hr.outgoing c (hne c hc), filter_map_redirect fun r => !r.isItem, hs.others c hc]

/-- The last node does not point at the chain when it has its receiver: an edge that does was the
receiver that it had. -/
theorem Receives.not_back (hs : Receives g h base read) (hbase : base ≠ n)
    (hn : n ∉ read.map Prod.fst)
    (hback : ∀ e ∈ g.outgoing ((read.map Prod.fst).getLastD base), e.node = n →
      read.map Prod.fst ≠ [] ∧ e.role = .receiver) :
    ∀ e ∈ h.outgoing ((read.map Prod.fst).getLastD base), e.node ≠ n := by
  rcases eq_nil_or_last_link base (read.map Prod.fst) with hnil | ⟨-, v, hv⟩
  · intro e he heq
    rw [hs.outgoing _ (by simp [hnil])] at he
    exact (hback e he heq).1 hnil
  · intro e he
    rw [hs.receiver _ hv] at he
    rcases List.mem_append.1 he with he | he
    · obtain ⟨he, hrole⟩ := List.mem_filter.1 he
      exact fun heq => of_decide_eq_true hrole (hback e he heq).2
    · rw [List.mem_singleton.1 he]
      exact ne_of_links hbase hn hv

theorem Receives.nestsSegments (hs : Receives g h base read)
    (hkinds : ∀ q ∈ read, afterDot? (g.kind q.1) = some q.2) (hbase : base ≠ n)
    (hn : n ∉ read.map Prod.fst) (hr : Retires h n ((read.map Prod.fst).getLastD base) h')
    (hkept : h.WellKept → h'.WellKept) : NestsSegments g n base (read.map Prod.fst) h' := by
  have hne : ∀ s ∈ read.map Prod.fst, s ≠ n := fun s hs h => hn (h ▸ hs)
  have hturned : ∀ s ∈ read.map Prod.fst, ∀ k, afterDot? (g.kind s) = some k →
      h'.kind s = .expr k := by
    intro s hmem k hk
    obtain ⟨q, hq, rfl⟩ := List.mem_map.1 hmem
    obtain rfl := Option.some.inj ((hkinds q hq).symm.trans hk)
    rw [hr.nodes.kind, hs.turned q hq]
  have hout : ∀ p ∈ links base (read.map Prod.fst), h'.outgoing p.2 =
      ((g.outgoing p.2).filter (·.role ≠ .receiver)).map
        (Edge.redirect n ((read.map Prod.fst).getLastD base)) ++ [⟨.receiver, p.1⟩] := by
    intro p hp
    have hlast : Edge.redirect n ((read.map Prod.fst).getLastD base) ⟨.receiver, p.1⟩ =
        ⟨.receiver, p.1⟩ := if_neg (ne_of_links hbase hn hp)
    rw [hr.outgoing p.2 (hne p.2 (mem_of_links hp).2), hs.receiver p hp, List.map_append,
      List.map_singleton, hlast]
  refine ⟨hs.toSpares.nests hr, fun s hs h => hturned s hs _ (by rw [h]; rfl),
    fun s hs h => hturned s hs _ (by rw [h]; rfl), fun p hp => ?_,
    fun s hmem => by rw [hr.items (hne s hmem), hs.items], fun s hmem => ?_, hkept hs.kept⟩
  · refine (child?_eq_some (hkept hs.kept)).2 ?_
    rw [hout p hp]
    exact List.mem_append_right _ List.mem_cons_self
  · obtain ⟨v, hv⟩ := exists_link base hmem
    rw [hout _ hv, List.filter_append]
    have hnone : ([⟨.receiver, v⟩] : List Edge).filter (·.role ≠ .receiver) = [] := rfl
    rw [hnone, List.append_nil, filter_map_redirect fun r => r ≠ .receiver, List.filter_filter]
    simp

/-! ## The rules -/

/-- A patch that a rule writes at a node of its kind is committed. -/
theorem run_tryAt_of_yields {r : GraphRule} {d : Draft Unit} {Q : Graph → Prop} (hg : g.WellKept)
    (happlies : r.applies g n) (heffect : r.effect g n = .ok (some d.patch))
    (hd : Draft.Yields g d g fun _ h => Q h) :
    ∃ h, (r.tryAt Graph.commit n).run g = (.ok true, h) ∧ Q h := by
  obtain ⟨h, hrun, -, hq⟩ := hd.run_commit hg.balanced
  refine ⟨h, Rule.run_tryAt_eq_ok.2 (Or.inr ⟨rfl, _, ?_, hrun⟩), hq⟩
  rw [Rule.fire?, if_pos happlies, heffect]

theorem run_tryAt_of_error {r : GraphRule} {fault : Fault} (happlies : r.applies g n)
    (heffect : r.effect g n = .error fault) :
    (r.tryAt Graph.commit n).run g = (.error fault, g) := by
  refine Rule.run_tryAt_eq_error.2 (Or.inl ⟨?_, rfl⟩)
  rw [Rule.fire?, if_pos happlies, heffect]

/-- A pipe is lowered to calls nested to the left. -/
theorem lower_pipe (hg : g.WellKept) (hk : g.kind n = .surface .dotPipe) (hn : g.isAttached n)
    (hitems : g.items n = head :: calls) (hcall : ∀ c ∈ calls, g.kind c = .expr .call)
    (hnodup : calls.Nodup) (hhead : head ≠ n)
    (hback : ∀ e ∈ g.outgoing (calls.getLastD head), e.node ≠ n) :
    ∃ h, (lowerDotPipe.tryAt Graph.commit n).run g = (.ok true, h) ∧
      NestsCalls g n head calls h := by
  have hmem : ∀ x ∈ head :: calls, g.has x := fun x hx => hg.has_item (hitems ▸ hx)
  have hapart : n ∉ calls := fun h => absurd (hk.symm.trans (hcall n h)) nofun
  refine run_tryAt_of_yields hg (by simp [lowerDotPipe, hk, hn]) (effect_of_calls hitems hcall) ?_
  refine ((yields_hand (hmem head List.mem_cons_self) hnodup fun c hc =>
    ⟨hmem c (List.mem_cons_of_mem _ hc), rfl, fun a ha => hg.has_item ha⟩).mono
      fun last h hs => ?_).bind
  obtain ⟨rfl, hs⟩ := hs
  have hhas : ∀ x, h.has x = g.has x := fun _ => has_congr hs.size
  exact (yields_retires ((hhas n).trans (has_of_kind hk nofun))
    ((hhas _).trans (hmem _ List.getLastD_mem_cons)) (last_ne hhead hapart)
      (hs.not_back hhead hapart hback)).mono fun _ h' hr =>
        hs.nestsCalls hcall hhead hapart hg hr.1 hr.2

/-- A dotted chain is lowered to fields and methods nested to the left. -/
theorem lower_chain (hg : g.WellKept) (hk : g.kind n = .surface .dotted) (hn : g.isAttached n)
    (hitems : g.items n = base :: segments)
    (hsegment : ∀ s ∈ segments, g.kind s = .expr .ident ∨ g.kind s = .expr .call)
    (hnodup : segments.Nodup) (hbase : base ≠ n)
    (hback : ∀ e ∈ g.outgoing (segments.getLastD base), e.node = n →
      segments ≠ [] ∧ e.role = .receiver) :
    ∃ h, (lowerDotted.tryAt Graph.commit n).run g = (.ok true, h) ∧
      NestsSegments g n base segments h := by
  have hmem : ∀ x ∈ base :: segments, g.has x := fun x hx => hg.has_item (hitems ▸ hx)
  have hapart : n ∉ segments := fun h => by
    rcases hsegment n h with h | h <;> exact absurd (hk.symm.trans h) nofun
  have hsegments : ∀ s ∈ segments, Program.isSegment (g.kind s) := fun s hs => by
    rcases hsegment s hs with h | h <;> rw [h] <;> rfl
  obtain ⟨read, hread, rfl, hkinds⟩ := mapM_readSegment hsegments
  refine run_tryAt_of_yields hg (by simp [lowerDotted, hk, hn])
    (effect_of_segments hitems hread) ?_
  refine ((yields_receive hg (hmem base List.mem_cons_self) hnodup fun q hq =>
    hmem q.1 (List.mem_cons_of_mem _ (List.mem_map_of_mem hq))).mono fun last h hs => ?_).bind
  obtain ⟨rfl, hs⟩ := hs
  have hhas : ∀ x, h.has x = g.has x := fun _ => has_congr hs.size
  exact (yields_retires ((hhas n).trans (has_of_kind hk nofun))
    ((hhas _).trans (hmem _ List.getLastD_mem_cons)) (last_ne hbase hapart)
      (hs.not_back hbase hapart hback)).mono fun _ h' hr =>
        hs.nestsSegments hkinds hbase hapart hr.1 hr.2

/-- A stage of a pipe that is no call stops the rule. -/
theorem refuse_stage (hk : g.kind n = .surface .dotPipe) (hn : g.isAttached n)
    (hitems : g.items n = head :: calls) (hbad : ∃ c ∈ calls, g.kind c ≠ .expr .call) :
    ∃ c ∈ calls, g.kind c ≠ .expr .call ∧ (lowerDotPipe.tryAt Graph.commit n).run g =
      (.error (.malformedSurface c .stageNotCall), g) := by
  cases hfind : calls.find? fun c => g.kind c ≠ .expr .call with
  | none =>
    obtain ⟨c, hc, hne⟩ := hbad
    exact absurd hne (by simpa using List.find?_eq_none.1 hfind c hc)
  | some c =>
    refine ⟨c, List.mem_of_find?_eq_some hfind, by simpa using List.find?_some hfind, ?_⟩
    refine run_tryAt_of_error (by simp [lowerDotPipe, hk, hn]) ?_
    simp only [lowerDotPipe, hitems, hfind]

theorem readSegment_eq_error {fault : Fault} (h : readSegment g s = .error fault) :
    g.kind s ≠ .expr .ident ∧ g.kind s ≠ .expr .call ∧
      fault = .malformedSurface s (.notAfterDot (g.kind s)) := by
  unfold readSegment at h
  split at h
  · cases h
  · next hnone =>
    refine ⟨fun hk => ?_, fun hk => ?_, (Except.error.inj h).symm⟩ <;>
    · rw [hk] at hnone
      cases hnone

/-- A segment that is neither a name nor a call stops the rule. -/
theorem refuse_segment (hk : g.kind n = .surface .dotted) (hn : g.isAttached n)
    (hitems : g.items n = base :: segments)
    (hbad : ∃ s ∈ segments, g.kind s ≠ .expr .ident ∧ g.kind s ≠ .expr .call) :
    ∃ s ∈ segments, g.kind s ≠ .expr .ident ∧ g.kind s ≠ .expr .call ∧
      (lowerDotted.tryAt Graph.commit n).run g =
        (.error (.malformedSurface s (.notAfterDot (g.kind s))), g) := by
  cases hread : segments.mapM (readSegment g) with
  | ok read =>
    obtain ⟨s, hs, hident, hcall⟩ := hbad
    obtain ⟨q, -, hq⟩ := exists_of_mapM_eq_ok hread s hs
    unfold readSegment afterDot? at hq
    split at hq
    · next k hk => split at hk <;> contradiction
    · cases hq
  | error fault =>
    obtain ⟨s, hs, hfault⟩ := exists_of_mapM_eq_error hread
    obtain ⟨hident, hcall, rfl⟩ := readSegment_eq_error hfault
    refine ⟨s, hs, hident, hcall, run_tryAt_of_error (by simp [lowerDotted, hk, hn]) ?_⟩
    simp only [lowerDotted, hitems, hread, Run.error_bind]

/-- Lowering the chains. If the items of a pipe behind its head are different calls, committing the
patch puts the head in front of the arguments of the first call, each call in front of those of the
next, and the last one in the place of the pipe. If the segments of a dotted chain are different
names and calls, they become fields and methods, each with what stood before it as its receiver,
and the last one takes the place of the chain. This asks that the chain is not its own first item,
and that the node in its place has no edge back to it, other than a receiver that is replaced. Empty
chains, stages that are no calls and segments that are neither names nor calls are refused, and then
nothing is committed. -/
theorem lower_chains (hg : g.WellKept) (hn : g.isAttached n) :
    (g.kind n = .surface .dotPipe →
      (∀ head calls, g.items n = head :: calls → (∀ c ∈ calls, g.kind c = .expr .call) →
        calls.Nodup → head ≠ n → (∀ e ∈ g.outgoing (calls.getLastD head), e.node ≠ n) →
        ∃ h, (lowerDotPipe.tryAt Graph.commit n).run g = (.ok true, h) ∧
          NestsCalls g n head calls h) ∧
      (g.items n = [] →
        (lowerDotPipe.tryAt Graph.commit n).run g = (.error (.malformedSurface n .emptyPipe), g)) ∧
      ∀ head calls, g.items n = head :: calls → (∃ c ∈ calls, g.kind c ≠ .expr .call) →
        ∃ c ∈ calls, g.kind c ≠ .expr .call ∧ (lowerDotPipe.tryAt Graph.commit n).run g =
          (.error (.malformedSurface c .stageNotCall), g)) ∧
    (g.kind n = .surface .dotted →
      (∀ base segments, g.items n = base :: segments →
        (∀ s ∈ segments, g.kind s = .expr .ident ∨ g.kind s = .expr .call) →
        segments.Nodup → base ≠ n →
        (∀ e ∈ g.outgoing (segments.getLastD base), e.node = n →
          segments ≠ [] ∧ e.role = .receiver) →
        ∃ h, (lowerDotted.tryAt Graph.commit n).run g = (.ok true, h) ∧
          NestsSegments g n base segments h) ∧
      (g.items n = [] →
        (lowerDotted.tryAt Graph.commit n).run g = (.error (.malformedSurface n .emptyChain), g)) ∧
      ∀ base segments, g.items n = base :: segments →
        (∃ s ∈ segments, g.kind s ≠ .expr .ident ∧ g.kind s ≠ .expr .call) →
        ∃ s ∈ segments, g.kind s ≠ .expr .ident ∧ g.kind s ≠ .expr .call ∧
          (lowerDotted.tryAt Graph.commit n).run g =
            (.error (.malformedSurface s (.notAfterDot (g.kind s))), g)) := by
  refine ⟨fun hk => ⟨fun head calls => lower_pipe hg hk hn, fun hitems => ?_,
    fun head calls => refuse_stage hk hn⟩, fun hk => ⟨fun base segments => lower_chain hg hk hn,
    fun hitems => ?_, fun base segments => refuse_segment hk hn⟩⟩
  · exact run_tryAt_of_error (by simp [lowerDotPipe, hk, hn]) (by simp only [lowerDotPipe, hitems])
  · exact run_tryAt_of_error (by simp [lowerDotted, hk, hn]) (by simp only [lowerDotted, hitems])

/-- A block with the pipe `xs .scale(2) .show()` and the chain `p.pos.shift(1)`. -/
def pipedChanges : List Change :=
  [.single (.add (.stmt .block) .none), .single (.add (.surface .dotPipe) .none),
    .single (.add (.expr .ident) (.str "xs")), .single (.add (.expr .call) (.str "scale")),
    .single (.add (.expr .intLit) (.int 2)), .single (.add (.expr .call) (.str "show")),
    .single (.add (.surface .dotted) .none), .single (.add (.expr .ident) (.str "p")),
    .single (.add (.expr .ident) (.str "pos")), .single (.add (.expr .call) (.str "shift")),
    .single (.add (.expr .intLit) (.int 1))] ++
  [(0, 1), (1, 2), (3, 4), (1, 3), (1, 5), (0, 6), (6, 7), (6, 8), (9, 10), (6, 9)].map
    fun p => .single (.pushItem ⟨p.1⟩ ⟨p.2⟩)

def piped : Graph := pipedChanges.foldl change empty

/-- The pipe becomes `show(scale(xs, 2))`, and the chain reads a field and calls a method on it. -/
theorem lower_chains_piped : piped.WellKept ∧ piped.isAttached ⟨1⟩ ∧ piped.isAttached ⟨6⟩ ∧
    (∃ h, (lowerDotPipe.tryAt Graph.commit ⟨1⟩).run piped = (.ok true, h) ∧
      NestsCalls piped ⟨1⟩ ⟨2⟩ [⟨3⟩, ⟨5⟩] h ∧ h.items ⟨0⟩ = [⟨5⟩, ⟨6⟩] ∧ h.items ⟨5⟩ = [⟨3⟩] ∧
      h.items ⟨3⟩ = [⟨2⟩, ⟨4⟩]) ∧
    ∃ h, (lowerDotted.tryAt Graph.commit ⟨6⟩).run piped = (.ok true, h) ∧
      NestsSegments piped ⟨6⟩ ⟨7⟩ [⟨8⟩, ⟨9⟩] h ∧ h.child? ⟨9⟩ .receiver = some ⟨8⟩ ∧
      h.child? ⟨8⟩ .receiver = some ⟨7⟩ := by
  have hkept : piped.WellKept := wellKept_foldl_change pipedChanges wellKept_empty (by decide)
  have hpipe : piped.isAttached ⟨1⟩ := by decide
  have hchain : piped.isAttached ⟨6⟩ := by decide
  obtain ⟨h, hrun, hcalls⟩ := ((lower_chains hkept hpipe).1 (by decide)).1 ⟨2⟩ [⟨3⟩, ⟨5⟩]
    (by decide) (by decide) (by decide) (by decide) (by decide)
  obtain ⟨h', hrun', hsegments⟩ := ((lower_chains hkept hchain).2 (by decide)).1 ⟨7⟩ [⟨8⟩, ⟨9⟩]
    (by decide) (by decide) (by decide) (by decide) (by decide)
  refine ⟨hkept, hpipe, hchain, ⟨h, hrun, hcalls, ?_, ?_, ?_⟩, h', hrun', hsegments, ?_, ?_⟩
  · rw [items, itemEdges, hcalls.outgoing ⟨0⟩ (by decide) (by decide)]
    decide
  · rw [hcalls.items (⟨3⟩, ⟨5⟩) (by decide)]
    decide
  · rw [hcalls.items (⟨2⟩, ⟨3⟩) (by decide)]
    decide
  · exact hsegments.receiver (⟨8⟩, ⟨9⟩) (by decide)
  · exact hsegments.receiver (⟨7⟩, ⟨8⟩) (by decide)

/-- A block with a chain whose items are an identifier and a call, the last of which is linked to
the chain. -/
def knotted (k : SurfaceKind) : Graph :=
  [Change.single (.add (.stmt .block) .none), .single (.add (.surface k) .none),
    .single (.add (.expr .ident) (.str "a")), .single (.add (.expr .call) (.str "f")),
    .single (.pushItem ⟨0⟩ ⟨1⟩), .single (.pushItem ⟨1⟩ ⟨2⟩), .single (.pushItem ⟨1⟩ ⟨3⟩),
    .single (.setChild ⟨3⟩ .ref ⟨1⟩)].foldl change empty

/-- A chain whose items are the chain itself and a call. -/
def looped (k : SurfaceKind) : Graph :=
  [Change.single (.add (.surface k) .none), .single (.add (.expr .call) (.str "f")),
    .single (.pushItem ⟨0⟩ ⟨0⟩), .single (.pushItem ⟨0⟩ ⟨1⟩)].foldl change empty

/-- An edge from the last node to its chain still points at the chain afterwards. A chain that is
its own first item loses its edges to itself, and gets a parent in the node that takes its place. -/
theorem lower_chains_knotted :
    ((knotted .dotPipe).kind ⟨1⟩ = .surface .dotPipe ∧ (knotted .dotPipe).isAttached ⟨1⟩ ∧
      (knotted .dotPipe).items ⟨1⟩ = [⟨2⟩, ⟨3⟩] ∧ (knotted .dotPipe).kind ⟨3⟩ = .expr .call ∧
      (knotted .dotPipe).parents ⟨2⟩ = [⟨1⟩] ∧ (knotted .dotPipe).parents ⟨3⟩ = [⟨1⟩] ∧
      ⟨.ref, ⟨1⟩⟩ ∈ (knotted .dotPipe).outgoing ⟨3⟩ ∧
      ∃ h, (lowerDotPipe.tryAt Graph.commit ⟨1⟩).run (knotted .dotPipe) = (.ok true, h) ∧
        ⟨.ref, ⟨1⟩⟩ ∈ h.outgoing ⟨3⟩ ∧ ⟨.ref, ⟨3⟩⟩ ∉ h.outgoing ⟨3⟩) ∧
    ((knotted .dotted).kind ⟨1⟩ = .surface .dotted ∧ (knotted .dotted).isAttached ⟨1⟩ ∧
      (knotted .dotted).items ⟨1⟩ = [⟨2⟩, ⟨3⟩] ∧ (knotted .dotted).kind ⟨3⟩ = .expr .call ∧
      ⟨.ref, ⟨1⟩⟩ ∈ (knotted .dotted).outgoing ⟨3⟩ ∧
      ∃ h, (lowerDotted.tryAt Graph.commit ⟨1⟩).run (knotted .dotted) = (.ok true, h) ∧
        ⟨.ref, ⟨1⟩⟩ ∈ h.outgoing ⟨3⟩ ∧ ⟨.ref, ⟨3⟩⟩ ∉ h.outgoing ⟨3⟩) ∧
    ((looped .dotPipe).kind ⟨0⟩ = .surface .dotPipe ∧ (looped .dotPipe).isAttached ⟨0⟩ ∧
      (looped .dotPipe).items ⟨0⟩ = [⟨0⟩, ⟨1⟩] ∧ (looped .dotPipe).kind ⟨1⟩ = .expr .call ∧
      (looped .dotPipe).parents ⟨0⟩ = [⟨0⟩] ∧ (looped .dotPipe).parents ⟨1⟩ = [⟨0⟩] ∧
      ∃ h, (lowerDotPipe.tryAt Graph.commit ⟨0⟩).run (looped .dotPipe) = (.ok true, h) ∧
        h.outgoing ⟨0⟩ = [] ∧ h.parents ⟨0⟩ = [⟨1⟩]) ∧
    (looped .dotted).kind ⟨0⟩ = .surface .dotted ∧ (looped .dotted).isAttached ⟨0⟩ ∧
      (looped .dotted).items ⟨0⟩ = [⟨0⟩, ⟨1⟩] ∧ (looped .dotted).kind ⟨1⟩ = .expr .call ∧
      ∃ h, (lowerDotted.tryAt Graph.commit ⟨0⟩).run (looped .dotted) = (.ok true, h) ∧
        h.outgoing ⟨0⟩ = [] ∧ h.parents ⟨0⟩ = [⟨1⟩] := by
  refine ⟨⟨by decide, by decide, by decide, by decide, by decide, by decide, by decide, _, rfl,
    by decide, by decide⟩, ⟨by decide, by decide, by decide, by decide, by decide, _, rfl,
    by decide, by decide⟩, ⟨by decide, by decide, by decide, by decide, by decide, by decide, _,
    rfl, by decide, by decide⟩, by decide, by decide, by decide, by decide, _, rfl, by decide,
    by decide⟩

end Lowering

end TypeFlow
