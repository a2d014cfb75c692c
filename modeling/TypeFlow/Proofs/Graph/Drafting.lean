import TypeFlow.Proofs.Graph.Mutation
import TypeFlow.Rule
/-!
# Drafts, step by step

`Graph.apply` creates all nodes of a patch before it makes the first edit. A new node has no edges
and is out of the way of the edits before it (`mutate_add`), so that a patch does what its draft
says in the order in which the draft says it. `Draft.Yields` is the rule of consequence for this
reading, with one rule for each kind of step.
-/

namespace TypeFlow

namespace Mutation

/-- The nodes that a mutation names. -/
def names : Mutation → List NodeId
  | .add _ _ => []
  | .setKind n _ | .setPayload n _ | .removeChild n _ | .clearItems n | .detach n => [n]
  | .setChild n _ m | .pushItem n m | .replace n m => [n, m]

end Mutation

namespace Graph

variable {g h : Graph} {n m s d : NodeId} {k : NodeKind} {p : Payload}

/-! ## New nodes are out of the way -/

theorem update_add (hn : g.has n) (f : Node → Node) :
    (g.add k p).update n f = (g.update n f).add k p := by
  have hlt : n.index < g.nodes.size := of_decide_eq_true hn
  simp only [update, add, Graph.mk.injEq]
  refine Array.ext (by simp) fun i hi hi' => ?_
  simp only [Array.getElem_modify, Array.getElem_push, Array.size_modify]
  by_cases hin : n.index = i
  · simp [← hin, hlt]
  · simp [hin]

theorem setOutgoing_add (hn : g.has n) (es : List Edge) :
    (g.add k p).setOutgoing n es = (g.setOutgoing n es).add k p := update_add hn _

theorem setIncoming_add (hn : g.has n) (es : List Edge) :
    (g.add k p).setIncoming n es = (g.setIncoming n es).add k p := update_add hn _

theorem link_add (hs : g.has s) (hd : g.has d) (r : Role) :
    (g.add k p).link s r d = (g.link s r d).add k p := by
  rw [link, outgoing_add, setOutgoing_add hs, incoming_add, setIncoming_add (by simpa using hd)]
  rfl

theorem dropIncoming_add {e : Edge} (he : g.has e.node) :
    (g.add k p).dropIncoming s e = (g.dropIncoming s e).add k p := by
  rw [dropIncoming, incoming_add, setIncoming_add he]
  rfl

theorem removeChild_add (hg : g.Balanced) (hs : g.has s) (r : Role) :
    (g.add k p).removeChild s r = (g.removeChild s r).add k p := by
  unfold removeChild
  rw [outgoing_add]
  split
  · rfl
  · next e he =>
    have hnode := hg.has_target (List.mem_of_find?_eq_some he)
    rw [setOutgoing_add hs, dropIncoming_add (by simpa using hnode)]

theorem foldl_dropIncoming_add : ∀ (es : List Edge) {g : Graph}, (∀ e ∈ es, g.has e.node) →
    es.foldl (fun h e => h.dropIncoming s e) (g.add k p) =
      (es.foldl (fun h e => h.dropIncoming s e) g).add k p
  | [], _, _ => rfl
  | e :: es, g, h => by
    rw [List.foldl_cons, List.foldl_cons, dropIncoming_add (h e List.mem_cons_self)]
    exact foldl_dropIncoming_add es fun f hf => by simpa using h f (List.mem_cons_of_mem e hf)

theorem removeWhere_add (hg : g.Balanced) (hs : g.has s) (q : Edge → Bool) :
    (g.add k p).removeWhere s q = (g.removeWhere s q).add k p := by
  rw [removeWhere, outgoing_add, setOutgoing_add hs]
  refine foldl_dropIncoming_add _ fun e he => ?_
  simpa using hg.has_target (List.mem_filter.1 he).1

theorem foldl_redirectFrom_add : ∀ (es : List Edge) {g : Graph}, (∀ e ∈ es, g.has e.node) →
    es.foldl (fun h e => h.redirectFrom n m e.node e.role) (g.add k p) =
      (es.foldl (fun h e => h.redirectFrom n m e.node e.role) g).add k p
  | [], _, _ => rfl
  | e :: es, g, h => by
    have hstep : (g.add k p).redirectFrom n m e.node e.role =
        (g.redirectFrom n m e.node e.role).add k p := by
      rw [redirectFrom, outgoing_add, setOutgoing_add (h e List.mem_cons_self)]
      rfl
    rw [List.foldl_cons, List.foldl_cons, hstep]
    exact foldl_redirectFrom_add es fun f hf => by
      simpa [redirectFrom] using h f (List.mem_cons_of_mem e hf)

/-- The source of an incoming edge is a node of the graph. -/
theorem Balanced.has_source (hg : g.Balanced) {e : Edge} (he : e ∈ g.incoming n) :
    g.has e.node := by
  by_contra hn
  have hout := hg.mem_iff.2 (show ⟨e.role, e.node⟩ ∈ g.incoming n from he)
  rw [outgoing_of_not_has (by simpa using hn)] at hout
  exact List.not_mem_nil hout

theorem replace_add (hg : g.Balanced) (hn : g.has n) (hm : g.has m) :
    (g.add k p).replace n m = (g.replace n m).add k p := by
  unfold replace
  split
  · rfl
  · have hmoved : ∀ e ∈ g.redirected n m, g.has e.node := by
      intro e he
      unfold redirected at he
      split at he
      · cases he
      · exact hg.has_source (List.mem_filter.1 he).1
    have hsame : (g.add k p).redirected n m = g.redirected n m := by simp [redirected]
    simp only [hsame, foldl_redirectFrom_add _ hmoved, incoming_add]
    rw [setIncoming_add (by simpa using hn), incoming_add, setIncoming_add (by simpa using hm)]

/-- A mutation on nodes that exist may as well come before a new node as behind it. -/
theorem mutate_add (hg : g.Balanced) {m : Mutation} (hm : ∀ n ∈ m.names, g.has n)
    (hadd : ∀ k p, m ≠ .add k p) : (g.add k p).mutate m = (g.mutate m).add k p := by
  cases m with
  | add k p => exact absurd rfl (hadd k p)
  | setKind n k | setPayload n p => exact update_add (hm n (by simp [Mutation.names])) _
  | setChild s r d =>
    have hs := hm s (by simp [Mutation.names])
    have hd := hm d (by simp [Mutation.names])
    simp only [mutate, setChild]
    rw [removeChild_add hg hs, link_add (by simpa using hs) (by simpa using hd)]
  | removeChild s r => exact removeChild_add hg (hm s (by simp [Mutation.names])) r
  | pushItem s d =>
    have hindex : (g.add k p).nextIndex s = g.nextIndex s := by simp [nextIndex]
    simp only [mutate, pushItem]
    rw [hindex, link_add (hm s (by simp [Mutation.names])) (hm d (by simp [Mutation.names]))]
  | clearItems s | detach s => exact removeWhere_add hg (hm s (by simp [Mutation.names])) _
  | replace n m =>
    exact replace_add hg (hm n (by simp [Mutation.names])) (hm m (by simp [Mutation.names]))

theorem balanced_mutate (hg : g.Balanced) {m : Mutation} (hm : ∀ n ∈ m.names, g.has n) :
    (g.mutate m).Balanced := by
  cases m with
  | add k p => exact balanced_add hg k p
  | setKind n k => exact hg.congr (fun _ => outgoing_setKind k) (fun _ => incoming_setKind k)
  | setPayload n p =>
    exact hg.congr (fun _ => outgoing_setPayload p) (fun _ => incoming_setPayload p)
  | setChild s r d =>
    have hs := hm s (by simp [Mutation.names])
    have hd := hm d (by simp [Mutation.names])
    exact balanced_link (balanced_removeChild hg r) (by simpa using hs) (by simpa using hd) r
  | removeChild s r => exact balanced_removeChild hg r
  | pushItem s d =>
    exact balanced_link hg (hm s (by simp [Mutation.names])) (hm d (by simp [Mutation.names])) _
  | clearItems s | detach s => exact balanced_removeWhere hg _
  | replace n m => exact balanced_replace hg (hm m (by simp [Mutation.names]))

/-! ## Edits of edges leave the nodes alone -/

/-- Two graphs differ in their edges at most. -/
structure SameNodes (g h : Graph) : Prop where
  size : h.size = g.size
  kind : ∀ n, h.kind n = g.kind n
  payload : ∀ n, h.payload n = g.payload n

theorem SameNodes.refl (g : Graph) : SameNodes g g := ⟨rfl, fun _ => rfl, fun _ => rfl⟩

theorem SameNodes.trans {k : Graph} (hgh : SameNodes g h) (hhk : SameNodes h k) :
    SameNodes g k where
  size := hhk.size.trans hgh.size
  kind n := (hhk.kind n).trans (hgh.kind n)
  payload n := (hhk.payload n).trans (hgh.payload n)

theorem sameNodes_setOutgoing (es : List Edge) : SameNodes g (g.setOutgoing n es) :=
  ⟨size_update _, fun _ => kind_setOutgoing, fun _ => payload_setOutgoing⟩

theorem sameNodes_setIncoming (es : List Edge) : SameNodes g (g.setIncoming n es) :=
  ⟨size_update _, fun _ => kind_setIncoming, fun _ => payload_setIncoming⟩

theorem sameNodes_foldl {α : Type} {f : Graph → α → Graph} (hf : ∀ g a, SameNodes g (f g a)) :
    ∀ (l : List α) (g : Graph), SameNodes g (l.foldl f g)
  | [], g => .refl g
  | a :: as, g => (hf g a).trans (sameNodes_foldl hf as (f g a))

theorem sameNodes_link (s : NodeId) (r : Role) (d : NodeId) : SameNodes g (g.link s r d) :=
  (sameNodes_setOutgoing _).trans (sameNodes_setIncoming _)

theorem sameNodes_removeChild (s : NodeId) (r : Role) : SameNodes g (g.removeChild s r) := by
  unfold removeChild
  split
  · exact .refl g
  · exact (sameNodes_setOutgoing _).trans (sameNodes_setIncoming _)

theorem sameNodes_setChild (s : NodeId) (r : Role) (d : NodeId) : SameNodes g (g.setChild s r d) :=
  (sameNodes_removeChild s r).trans (sameNodes_link s r d)

theorem sameNodes_removeWhere (s : NodeId) (q : Edge → Bool) : SameNodes g (g.removeWhere s q) :=
  (sameNodes_setOutgoing _).trans (sameNodes_foldl (fun _ _ => sameNodes_setIncoming _) _ _)

theorem sameNodes_replace (n m : NodeId) : SameNodes g (g.replace n m) := by
  unfold replace
  split
  · exact .refl g
  · exact ((sameNodes_foldl (fun _ _ => sameNodes_setOutgoing _) _ g).trans
      (sameNodes_setIncoming _)).trans (sameNodes_setIncoming _)

theorem has_congr (h' : h.size = g.size) : h.has n = g.has n := by simp [has, h']

end Graph

/-! ## The mutation of an edit -/

/-- The node that a handle names, where the nodes of its patch come behind those of a graph. -/
def Handle.at (g : Graph) : Handle → NodeId
  | .old n => n
  | .new i => ⟨g.size + i⟩

@[simp] theorem Handle.at_old (g : Graph) (n : NodeId) : (Handle.old n).at g = n := rfl

/-- The mutation that an edit of a patch for a graph stands for. -/
def Edit.at (g : Graph) : Edit → Mutation
  | .setChild src role dst => .setChild (src.at g) role (dst.at g)
  | .removeChild src role => .removeChild (src.at g) role
  | .pushItem src dst => .pushItem (src.at g) (dst.at g)
  | .clearItems src => .clearItems (src.at g)
  | .replace old new => .replace (old.at g) (new.at g)
  | .detach node => .detach (node.at g)
  | .setKind node kind => .setKind (node.at g) kind
  | .setPayload node payload => .setPayload (node.at g) payload

namespace Graph

variable {g h : Graph} {p : Patch} {count : Nat}

theorem resolve_handle {a : Handle} (ha : (a.at g).index < g.size + count) :
    a.resolve (g.freshIds count) = .ok (a.at g) := by
  cases a with
  | old n => rfl
  | new i =>
    have hi : i < count := by
      simp only [Handle.at] at ha
      omega
    simp [Handle.resolve, freshIds, Handle.at, hi]

theorem resolve_edit {e : Edit} (he : ∀ n ∈ (e.at g).names, n.index < g.size + count) :
    e.resolve (g.freshIds count) = .ok (e.at g) := by
  cases e with
  | setChild src role dst | pushItem src dst | replace src dst =>
    have hsrc := resolve_handle (he (src.at g) (by simp [Edit.at, Mutation.names]))
    have hdst := resolve_handle (he (dst.at g) (by simp [Edit.at, Mutation.names]))
    rw [Edit.resolve, hsrc, hdst]
    rfl
  | removeChild src | clearItems src | detach src | setKind src | setPayload src =>
    rw [Edit.resolve, resolve_handle (he (src.at g) (by simp [Edit.at, Mutation.names]))]
    rfl

/-- An edit adds no node. -/
theorem size_mutate_at (e : Edit) : (h.mutate (e.at g)).size = h.size := by
  cases e with
  | setChild src role dst => exact (sameNodes_setChild _ _ _).size
  | removeChild src role => exact (sameNodes_removeChild _ _).size
  | pushItem src dst => exact (sameNodes_link _ _ _).size
  | clearItems src | detach src => exact (sameNodes_removeWhere _ _).size
  | replace old new => exact (sameNodes_replace _ _).size
  | setKind node kind | setPayload node payload => exact size_update _

/-- No node is ever taken away. -/
theorem size_le_mutate (m : Mutation) : g.size ≤ (g.mutate m).size := by
  cases m with
  | add k p => rw [mutate, size_add]; exact Nat.le_succ _
  | setKind | setPayload => exact Nat.le_of_eq (size_update _).symm
  | setChild => exact Nat.le_of_eq (sameNodes_setChild _ _ _).size.symm
  | removeChild => exact Nat.le_of_eq (sameNodes_removeChild _ _).size.symm
  | pushItem => exact Nat.le_of_eq (sameNodes_link _ _ _).size.symm
  | clearItems | detach => exact Nat.le_of_eq (sameNodes_removeWhere _ _).size.symm
  | replace => exact Nat.le_of_eq (sameNodes_replace _ _).size.symm

theorem size_le_applyEdits (created : List NodeId) : ∀ (edits : List Edit) (g : Graph),
    g.size ≤ ((applyEdits created edits).run g).2.size
  | [], _ => Nat.le_refl _
  | e :: es, g => by
    rw [run_applyEdits_cons]
    cases e.resolve created with
    | error fault => exact Nat.le_refl _
    | ok m =>
      exact Nat.le_trans (size_le_mutate m) (size_le_applyEdits created es (g.mutate m))

/-- Edits whose handles all name nodes are made in order. -/
theorem applyEdits_eq {created : List NodeId} : ∀ (edits : List Edit) {h : Graph},
    (∀ e ∈ edits, e.resolve created = .ok (e.at g)) →
      (applyEdits created edits).run h = (.ok (), (edits.map (Edit.at g)).foldl mutate h)
  | [], _, _ => rfl
  | e :: es, h, hall => by
    rw [applyEdits, Run.run_bind_of_ok Run.run_get, applyEdit_eq, hall e List.mem_cons_self]
    exact (Run.run_bind_of_ok (Run.run_set _)).trans
      (applyEdits_eq es fun f hf => hall f (List.mem_cons_of_mem e hf))

/-- A patch all of whose handles name nodes is applied. -/
theorem run_apply_of_named
    (h : ∀ e ∈ p.edits, ∀ n ∈ (e.at g).names, n.index < g.size + p.nodes.length) :
    (Graph.apply p).run g = (.ok (g.freshIds p.nodes.length),
      (p.edits.map (Edit.at g)).foldl mutate (g.addAll p.nodes)) := by
  rw [Graph.apply, Run.run_bind_of_ok Run.run_get, Run.run_bind_of_ok (Run.run_modify _),
    Run.run_bind_of_ok (applyEdits_eq p.edits fun e he => resolve_edit (h e he))]
  rfl

theorem size_addAll : ∀ (nodes : List (NodeKind × Payload)) (g : Graph),
    (g.addAll nodes).size = g.size + nodes.length
  | [], _ => rfl
  | n :: ns, g => by
    rw [addAll, List.foldl_cons, ← addAll, size_addAll ns, size_add, List.length_cons]
    omega

theorem size_le_commit {g' : Graph} (h : (Graph.commit p).run g = (.ok (), g')) :
    g.size ≤ g'.size := by
  obtain ⟨created, t, happly, hpure⟩ := Run.run_bind_eq_ok.1 h
  obtain rfl := (Prod.mk.inj hpure).2
  rw [Graph.apply, Run.run_bind_of_ok Run.run_get, Run.run_bind_of_ok (Run.run_modify _)] at happly
  obtain ⟨_, t', hedits, hpure⟩ := Run.run_bind_eq_ok.1 happly
  obtain rfl := (Prod.mk.inj hpure).2
  have hle := size_le_applyEdits (g.freshIds p.nodes.length) p.edits (g.addAll p.nodes)
  rw [hedits, size_addAll] at hle
  exact Nat.le_trans (Nat.le_add_right _ _) hle

/-- Edits on nodes that exist may as well come before a new node as behind it. -/
theorem foldl_mutate_add (k : NodeKind) (pl : Payload) : ∀ (edits : List Edit) {h : Graph},
    h.Balanced → (∀ e ∈ edits, ∀ n ∈ (e.at g).names, h.has n) →
      (edits.map (Edit.at g)).foldl mutate (h.add k pl) =
        ((edits.map (Edit.at g)).foldl mutate h).add k pl
  | [], _, _, _ => rfl
  | e :: es, h, hh, hall => by
    have he := hall e List.mem_cons_self
    rw [List.map_cons, List.foldl_cons, List.foldl_cons,
      mutate_add hh he (by intro k p; cases e <;> simp [Edit.at])]
    refine foldl_mutate_add k pl es (balanced_mutate hh he) fun f hf n hn => ?_
    rw [has_congr (size_mutate_at e)]
    exact hall f (List.mem_cons_of_mem e hf) n hn

/-! ## What a draft has done -/

/-- A patch for a graph, as far as it is drafted, makes another graph of it. -/
structure Draws (g : Graph) (p : Patch) (h : Graph) : Prop where
  base : g.Balanced
  balanced : h.Balanced
  size : h.size = g.size + p.nodes.length
  named : ∀ e ∈ p.edits, ∀ n ∈ (e.at g).names, h.has n
  graph : (p.edits.map (Edit.at g)).foldl mutate (g.addAll p.nodes) = h

theorem balanced_addAll : ∀ (nodes : List (NodeKind × Payload)) {g : Graph},
    g.Balanced → (g.addAll nodes).Balanced
  | [], _, hg => hg
  | _ :: ns, _, hg => balanced_addAll ns (balanced_add hg _ _)

theorem draws_empty (hg : g.Balanced) : Draws g .empty g := ⟨hg, hg, rfl, nofun, rfl⟩

/-- A node that is drafted after some edits is added after them. -/
theorem Draws.node (hp : Draws g p h) (k : NodeKind) (pl : Payload) :
    Draws g { p with nodes := p.nodes ++ [(k, pl)] } (h.add k pl) where
  base := hp.base
  balanced := balanced_add hp.balanced k pl
  size := by simp [hp.size, Nat.add_assoc]
  named e he n hn := by rw [has_add, hp.named e he n hn]; rfl
  graph := by
    have hsize : (g.addAll p.nodes).size = h.size := by rw [size_addAll, hp.size]
    have hadd : g.addAll (p.nodes ++ [(k, pl)]) = (g.addAll p.nodes).add k pl := by
      simp [addAll, List.foldl_append]
    rw [hadd, foldl_mutate_add k pl p.edits (balanced_addAll _ hp.base), hp.graph]
    intro e he n hn
    rw [has_congr hsize]
    exact hp.named e he n hn

theorem Draws.edit (hp : Draws g p h) {e : Edit} (he : ∀ n ∈ (e.at g).names, h.has n) :
    Draws g (p.extend e) (h.mutate (e.at g)) where
  base := hp.base
  balanced := balanced_mutate hp.balanced he
  size := by rw [size_mutate_at]; exact hp.size
  named f hf n hn := by
    rw [has_congr (size_mutate_at e)]
    rcases List.mem_append.1 hf with hf | hf
    · exact hp.named f hf n hn
    · obtain rfl := List.mem_singleton.1 hf
      exact he n hn
  graph := by simp [Patch.extend, List.map_append, List.foldl_append, hp.graph]

/-- Applying the patch makes the graph. -/
theorem Draws.run_commit (hp : Draws g p h) : (Graph.apply p).run g =
    (.ok (g.freshIds p.nodes.length), h) := by
  rw [run_apply_of_named fun e he n hn => ?_, hp.graph]
  have hhas : h.has n := hp.named e he n hn
  simpa [has, hp.size] using hhas

end Graph

/-! ## Rules for drafts -/

namespace Draft

open TypeFlow.Graph (Draws)

variable {α β : Type} {g h : Graph} {Q : α → Graph → Prop} {R : β → Graph → Prop}

/-- From a graph `h` that the steps so far make of `g`, a draft goes on to one that its answer
fits. -/
def Yields (g : Graph) (d : Draft α) (h : Graph) (Q : α → Graph → Prop) : Prop :=
  ∀ p, Draws g p h → ∃ h', Draws g (d.run p).2 h' ∧ Q (d.run p).1 h'

theorem yields_pure {a : α} (hq : Q a h) : Yields g (pure a) h Q := fun _ hp => ⟨h, hp, hq⟩

theorem Yields.bind {d : Draft α} {f : α → Draft β}
    (hd : Yields g d h fun a h' => Yields g (f a) h' R) : Yields g (d >>= f) h R := by
  intro p hp
  obtain ⟨h', hp', hf⟩ := hd p hp
  exact hf _ hp'

theorem Yields.mono {d : Draft α} {Q' : α → Graph → Prop} (hd : Yields g d h Q)
    (hq : ∀ a h', Q a h' → Q' a h') : Yields g d h Q' := by
  intro p hp
  obtain ⟨h', hp', ha⟩ := hd p hp
  exact ⟨h', hp', hq _ _ ha⟩

/-- The graph in between keeps its edges at both ends. -/
theorem yields_of_balanced {d : Draft α} (hd : h.Balanced → Yields g d h Q) : Yields g d h Q :=
  fun p hp => hd hp.balanced p hp

/-- A drafted node is the next one. -/
theorem yields_node {k : NodeKind} {pl : Payload} {Q : Handle → Graph → Prop}
    (hq : ∀ a : Handle, a.at g = h.fresh → Q a (h.add k pl)) :
    Yields g (Draft.node k pl) h Q := by
  intro p hp
  refine ⟨h.add k pl, hp.node k pl, hq (.new p.nodes.length) ?_⟩
  rw [Handle.at, Graph.fresh, hp.size]

theorem yields_edit {e : Edit} {Q : Unit → Graph → Prop} (he : ∀ n ∈ (e.at g).names, h.has n)
    (hq : Q () (h.mutate (e.at g))) : Yields g (Draft.edit e) h Q :=
  fun _ hp => ⟨_, hp.edit he, hq⟩

/-- The patch of a draft can be applied, and does what the draft does. -/
theorem Yields.run_commit {d : Draft Unit} {Q : Unit → Graph → Prop} (hg : g.Balanced)
    (hd : Yields g d g Q) : ∃ h, (Graph.commit d.patch).run g = (.ok (), h) ∧ h.Balanced ∧
      Q () h := by
  obtain ⟨h, hp, hq⟩ := hd .empty (Graph.draws_empty hg)
  exact ⟨h, Run.run_bind_of_ok hp.run_commit, hp.balanced, hq⟩

end Draft

end TypeFlow
