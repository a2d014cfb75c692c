import TypeFlow.Graph.Patch
import TypeFlow.Proofs.Graph.WellKept
import TypeFlow.Proofs.Run
/-!
# Runs of changes

A caller changes a graph by single mutations and by patches (`Change`). A change is legal if the
nodes that it names exist when its turn comes and no list is continued past its last index.
`wellKept_changes` says that every graph made by legal changes is well kept, also where a patch
stops halfway.
-/

namespace TypeFlow

/-- A single change of a graph, on nodes that exist. -/
inductive Mutation where
  | add (kind : NodeKind) (payload : Payload)
  | setKind (n : NodeId) (kind : NodeKind)
  | setPayload (n : NodeId) (payload : Payload)
  | setChild (src : NodeId) (role : Role) (dst : NodeId)
  | removeChild (src : NodeId) (role : Role)
  | pushItem (src dst : NodeId)
  | clearItems (src : NodeId)
  | detach (n : NodeId)
  /-- Let every edge to `old` point at `new`. -/
  | replace (old new : NodeId)
  deriving DecidableEq, Repr

/-- A single change or a patch. -/
inductive Change where
  | single (m : Mutation)
  | patch (p : Patch)
  deriving DecidableEq, Repr

namespace Graph

/-- The graph after a mutation. -/
def mutate (g : Graph) : Mutation → Graph
  | .add kind payload => g.add kind payload
  | .setKind n kind => g.setKind n kind
  | .setPayload n payload => g.setPayload n payload
  | .setChild src role dst => g.setChild src role dst
  | .removeChild src role => g.removeChild src role
  | .pushItem src dst => g.pushItem src dst
  | .clearItems src => g.clearItems src
  | .detach n => g.detach n
  | .replace old new => g.replace old new

/-- The graph after a change. A patch that stops leaves what it did before. -/
def change (g : Graph) : Change → Graph
  | .single m => g.mutate m
  | .patch p => ((Graph.apply p).run g).2

/-- Whether the list of a node can be continued: its last index is not in use. -/
def hasRoom (g : Graph) (n : NodeId) : Bool :=
  (g.outgoing n).all fun e => e.role ≠ .item 0xFFFFFFFF

end Graph

namespace Mutation

/-- The nodes that a mutation names exist, and a list that it continues has room. -/
def legal (g : Graph) : Mutation → Bool
  | .add _ _ => true
  | .setKind n _ | .setPayload n _ | .clearItems n | .detach n => g.has n
  | .setChild src _ dst => g.has src && g.has dst
  | .removeChild src _ => g.has src
  | .pushItem src dst => g.has src && g.has dst && g.hasRoom src
  | .replace old new => g.has old && g.has new

end Mutation

namespace Edit

/-- The mutation that an edit stands for, once the nodes of its patch are there. -/
def resolve (created : List NodeId) : Edit → Except Fault Mutation
  | .setChild src role dst => do
    return .setChild (← src.resolve created) role (← dst.resolve created)
  | .removeChild src role => do return .removeChild (← src.resolve created) role
  | .pushItem src dst => do return .pushItem (← src.resolve created) (← dst.resolve created)
  | .clearItems src => do return .clearItems (← src.resolve created)
  | .replace old new => do return .replace (← old.resolve created) (← new.resolve created)
  | .detach node => do return .detach (← node.resolve created)
  | .setKind node kind => do return .setKind (← node.resolve created) kind
  | .setPayload node payload => do return .setPayload (← node.resolve created) payload

/-- Each edit of a list is legal when its turn comes; what follows a stale handle is not made. -/
def allLegal (created : List NodeId) : Graph → List Edit → Bool
  | _, [] => true
  | g, e :: es =>
    match e.resolve created with
    | .error _ => true
    | .ok m => m.legal g && allLegal created (g.mutate m) es

end Edit

namespace Change

/-- A mutation is legal, or every edit of a patch is when its turn comes. -/
def legal (g : Graph) : Change → Bool
  | .single m => m.legal g
  | .patch p => Edit.allLegal (g.freshIds p.nodes.length) (g.addAll p.nodes) p.edits

/-- Each change of a list is legal when its turn comes. -/
def allLegal : Graph → List Change → Bool
  | _, [] => true
  | g, c :: cs => c.legal g && allLegal (g.change c) cs

end Change

namespace Graph

variable {g : Graph}

/-! ## One step -/

theorem wellKept_empty : empty.WellKept where
  balanced s d r := by simp [outgoing, incoming, node, empty, default]
  unique s := by simp [outgoing, node, empty, default]

theorem wellKept_mutate (hg : g.WellKept) {m : Mutation} (hm : m.legal g) :
    (g.mutate m).WellKept := by
  cases m with
  | add k p => exact wellKept_add hg k p
  | setKind n k => exact wellKept_setKind hg k
  | setPayload n p =>
    exact hg.congr (fun _ => outgoing_setPayload p) (fun _ => incoming_setPayload p)
  | setChild s r d =>
    obtain ⟨hs, hd⟩ : g.has s ∧ g.has d := by simpa [Mutation.legal] using hm
    exact wellKept_setChild hg hs hd r
  | removeChild s r => exact wellKept_removeChild hg r
  | pushItem s d =>
    obtain ⟨⟨hs, hd⟩, hroom⟩ : (g.has s ∧ g.has d) ∧ g.hasRoom s := by
      simpa [Mutation.legal] using hm
    exact wellKept_pushItem hg hs hd (by simpa [hasRoom] using hroom)
  | clearItems s => exact wellKept_removeWhere hg _
  | detach n => exact wellKept_removeWhere hg _
  | replace old new =>
    obtain ⟨-, hnew⟩ : g.has old ∧ g.has new := by simpa [Mutation.legal] using hm
    exact wellKept_replace hg hnew

/-! ## Patches -/

/-- An edit is the mutation that it stands for. -/
theorem applyEdit_eq (created : List NodeId) (e : Edit) :
    g.applyEdit created e = (e.resolve created).map g.mutate := by
  cases e with
  | setChild src r dst | pushItem src dst | replace src dst =>
    simp only [applyEdit, Edit.resolve]
    cases src.resolve created with
    | error fault => rfl
    | ok s => cases dst.resolve created <;> rfl
  | removeChild src | clearItems src | detach src | setKind src | setPayload src =>
    simp only [applyEdit, Edit.resolve]
    cases src.resolve created <;> rfl

/-- The first stale handle stops a list of edits and leaves the graph as it is by then. -/
theorem run_applyEdits_cons (created : List NodeId) (e : Edit) (es : List Edit) :
    ((applyEdits created (e :: es)).run g).2 =
      match e.resolve created with
      | .error _ => g
      | .ok m => ((applyEdits created es).run (g.mutate m)).2 := by
  rw [applyEdits, Run.run_bind_of_ok Run.run_get, applyEdit_eq]
  cases e.resolve created with
  | error fault => rfl
  | ok m => exact congrArg Prod.snd (Run.run_bind_of_ok (Run.run_set _))

theorem change_patch (p : Patch) : g.change (.patch p) =
    ((applyEdits (g.freshIds p.nodes.length) p.edits).run (g.addAll p.nodes)).2 := by
  rw [change, Graph.apply, Run.run_bind_of_ok Run.run_get, Run.run_bind_of_ok (Run.run_modify _),
    Run.run_bind]
  rcases (applyEdits (g.freshIds p.nodes.length) p.edits).run (g.addAll p.nodes) with ⟨_ | _, _⟩
  · rfl
  · rfl

theorem wellKept_addAll (hg : g.WellKept) (nodes : List (NodeKind × Payload)) :
    (g.addAll nodes).WellKept := by
  induction nodes generalizing g with
  | nil => exact hg
  | cons n ns ih => exact ih (wellKept_add hg _ _)

/-- The graph in which the edits of a list end, at the first stale handle or behind the last. -/
theorem wellKept_applyEdits (created : List NodeId) : ∀ (edits : List Edit) {g : Graph},
    g.WellKept → Edit.allLegal created g edits → ((applyEdits created edits).run g).2.WellKept
  | [], _, hg, _ => hg
  | e :: es, g, hg, hlegal => by
    rw [run_applyEdits_cons]
    cases hr : e.resolve created with
    | error fault => exact hg
    | ok m =>
      obtain ⟨hm, hes⟩ : m.legal g ∧ Edit.allLegal created (g.mutate m) es := by
        simpa [Edit.allLegal, hr] using hlegal
      exact wellKept_applyEdits created es (wellKept_mutate hg hm) hes

theorem wellKept_change (hg : g.WellKept) {c : Change} (hc : c.legal g) :
    (g.change c).WellKept := by
  cases c with
  | single m => exact wellKept_mutate hg hc
  | patch p =>
    rw [change_patch]
    exact wellKept_applyEdits _ p.edits (wellKept_addAll hg p.nodes) hc

/-! ## Runs -/

theorem wellKept_foldl_change : ∀ (cs : List Change) {g : Graph}, g.WellKept →
    Change.allLegal g cs → (cs.foldl change g).WellKept
  | [], _, hg, _ => hg
  | c :: cs, g, hg, hlegal => by
    obtain ⟨hc, hcs⟩ : c.legal g ∧ Change.allLegal (g.change c) cs := by
      simpa [Change.allLegal] using hlegal
    exact wellKept_foldl_change cs (wellKept_change hg hc) hcs

/-- Whatever legal changes make of the empty graph, both records of its edges agree and no node
has two edges of one role. -/
theorem wellKept_changes (cs : List Change) (h : Change.allLegal empty cs) :
    (cs.foldl change empty).WellKept :=
  wellKept_foldl_change cs wellKept_empty h

/-- A loop, two roles between the same nodes, a replacement that leaves an edge of the new node
alone, and a patch that stops at its second edit. -/
def sampleChanges : List Change :=
  [.single (.add (.stmt .block) .none), .single (.add (.expr .ident) .none),
    .single (.setChild ⟨0⟩ .value ⟨0⟩), .single (.setChild ⟨1⟩ .left ⟨0⟩),
    .single (.setChild ⟨1⟩ .right ⟨0⟩), .single (.pushItem ⟨0⟩ ⟨1⟩),
    .single (.replace ⟨0⟩ ⟨1⟩),
    .patch ⟨[(.expr .len, .none)],
      [.setChild (.new 0) .operand (.old ⟨0⟩), .detach (.new 1), .detach (.old ⟨1⟩)]⟩]

theorem wellKept_sampleChanges : Change.allLegal empty sampleChanges ∧
    (sampleChanges.foldl change empty).WellKept :=
  ⟨by decide, wellKept_changes sampleChanges (by decide)⟩

end Graph

end TypeFlow
