import Mathlib.Data.Finset.Card
import TypeFlow.Proofs.Graph.Found
import TypeFlow.Proofs.Graph.Reach
/-!
# Depth first, by recursion

`Graph.descend` keeps a stack on which a node may wait several times. `Graph.preorder` is the same
order by recursion: a node that was not seen comes first, then all that is newly reached from its
children, then its siblings. Both give one list (`eq_preorderFrom_of_walk`), which holds what is
`Reached`, each node once.

What a search finds is read off this list, and a search that stops early finds an initial part of
that (`descendUntil_eq`). `collect_down` puts this together.
-/

namespace TypeFlow

namespace Graph

variable {g : Graph} {s : Search} {n m : NodeId} {seen ns : List NodeId}

/-! ## The recursion -/

/-- How many nodes of the graph were not seen. -/
def unvisited (g : Graph) (seen : List NodeId) : Nat :=
  ((Finset.range g.size).filter fun i => (⟨i⟩ : NodeId) ∉ seen).card

theorem unvisited_le {seen' : List NodeId} (h : seen ⊆ seen') :
    g.unvisited seen' ≤ g.unvisited seen :=
  Finset.card_le_card (Finset.monotone_filter_right _ fun _ _ hi hseen => hi (h hseen))

theorem unvisited_lt (hg : g.has n) (hn : n ∉ seen) :
    g.unvisited (seen ++ [n]) < g.unvisited seen := by
  refine Finset.card_lt_card ((Finset.ssubset_iff_of_subset ?_).2 ⟨n.index, ?_, ?_⟩)
  · exact Finset.monotone_filter_right _ fun _ _ hi hseen => hi (List.mem_append_left _ hseen)
  · exact Finset.mem_filter.2 ⟨by simpa [has] using hg, hn⟩
  · simp

theorem lex_of_le {a a' b b' : Nat} (ha : a ≤ a') (hb : b < b') :
    Prod.Lex (· < ·) (· < ·) (a, b) (a', b') := by
  rcases Nat.lt_or_eq_of_le ha with ha | rfl
  · exact .left _ _ ha
  · exact .right _ hb

/-- Visit the nodes of a list in order, each that was not seen with all that is newly reached from
it. The result continues what was seen before. -/
def visitAll (g : Graph) (s : Search) (seen : List NodeId) :
    List NodeId → { out : List NodeId // seen ⊆ out }
  | [] => ⟨seen, fun _ h => h⟩
  | n :: ns =>
    if _ : n ∈ seen then g.visitAll s seen ns
    else
      let subtree := g.visitAll s (seen ++ [n]) (g.below s n)
      let rest := g.visitAll s subtree.1 ns
      ⟨rest.1, fun _ hm => rest.2 (subtree.2 (List.mem_append_left _ hm))⟩
termination_by ns => (g.unvisited seen, ns.length)
decreasing_by
  · exact lex_of_le (Nat.le_refl _) (Nat.lt_succ_self _)
  · by_cases hg : g.has n = true
    · exact .left _ _ (unvisited_lt hg ‹n ∉ seen›)
    · -- a node outside the graph has nothing below it
      rw [below_of_not_has (by simpa using hg)]
      exact lex_of_le (unvisited_le (List.subset_append_left _ _)) (Nat.succ_pos _)
  · exact lex_of_le (unvisited_le fun _ hm => subtree.2 (List.mem_append_left _ hm))
      (Nat.lt_succ_self _)

/-- Visit the nodes of a list in order by recursion, after those that were seen. -/
def preorderFrom (g : Graph) (s : Search) (seen ns : List NodeId) : List NodeId :=
  (g.visitAll s seen ns).1

/-- All that a search comes to from its start, by recursion. -/
def preorder (g : Graph) (s : Search) : List NodeId := g.preorderFrom s [] [s.start]

@[simp] theorem preorderFrom_nil : g.preorderFrom s seen [] = seen := by
  rw [preorderFrom, visitAll]

theorem preorderFrom_cons : g.preorderFrom s seen (n :: ns) =
    if n ∈ seen then g.preorderFrom s seen ns
    else g.preorderFrom s (g.preorderFrom s (seen ++ [n]) (g.below s n)) ns := by
  rw [preorderFrom, visitAll]
  split
  · rfl
  · rfl

theorem preorderFrom_append (ms : List NodeId) : g.preorderFrom s seen (ns ++ ms) =
    g.preorderFrom s (g.preorderFrom s seen ns) ms := by
  induction ns generalizing seen with
  | nil => simp
  | cons n ns ih =>
    rw [List.cons_append, preorderFrom_cons, preorderFrom_cons]
    split
    · exact ih
    · exact ih

/-- A walk through a stack is the recursion over it. -/
theorem eq_preorderFrom_of_walk {stack out : List NodeId}
    (h : Walk (g.below s) seen stack out) : out = g.preorderFrom s seen.reverse stack := by
  induction h with
  | done seen => simp
  | skip hn _ ih => rw [preorderFrom_cons, if_pos (List.mem_reverse.2 hn), ih]
  | visit hn _ ih =>
    rw [preorderFrom_cons, if_neg fun hmem => hn (List.mem_reverse.1 hmem), ih,
      List.reverse_cons, preorderFrom_append]

/-! ## What is come to -/

/-- A node that a downward search comes to: its start, and what followed edges lead to from a node
that it continues past. -/
inductive Reached (g : Graph) (s : Search) : NodeId → Prop
  | start : Reached g s s.start
  | follow {n : NodeId} {e : Edge} (h : Reached g s n) (hn : s.expands n) (he : e ∈ g.outgoing n)
      (hs : s.follow e.role) : Reached g s e.node

theorem mem_below : m ∈ g.below s n ↔
    s.expands n ∧ ∃ e ∈ g.outgoing n, s.follow e.role ∧ e.node = m := by
  unfold below
  split
  · next hn => simp [hn, and_assoc]
  · next hn => simp [hn]

/-- A search goes down along the followed edges in the order of their roles. -/
theorem exists_below_eq (g : Graph) (s : Search) (n : NodeId) : ∃ edges : List Edge,
    g.below s n = edges.map (·.node) ∧
      edges.Perm (if s.expands n then (g.outgoing n).filter (s.follow ·.role) else []) ∧
        edges.Pairwise (·.role.position ≤ ·.role.position) := by
  unfold below
  split
  · exact ⟨_, rfl, Edge.perm_byRole _, Edge.pairwise_byRole _⟩
  · exact ⟨[], rfl, .refl _, .nil⟩

theorem mem_iff_reached_of_walk {out : List NodeId}
    (h : Walk (g.below s) [] [s.start] out) : n ∈ out ↔ g.Reached s n := by
  constructor
  · refine fun hn => h.sound (fun n hn m hm => ?_) nofun (List.forall_mem_singleton.2 .start) n hn
    obtain ⟨hexpands, e, he, hs, rfl⟩ := mem_below.1 hm
    exact hn.follow hexpands he hs
  · intro hn
    induction hn with
    | start => exact h.mem (Or.inr List.mem_cons_self)
    | follow _ hexpands he hs ih =>
      exact h.closed nofun _ ih _ (mem_below.2 ⟨hexpands, _, he, hs, rfl⟩)

/-! ## What is found -/

/-- A downward search that stops early goes the way of one that does not. -/
theorem descendUntil_eq (p stop : NodeId → Bool) : ∀ (steps : Nat) (seen stack : List NodeId),
    ∃ rest, g.descend s steps seen stack = seen.reverse ++ rest ∧
      g.descendUntil s p stop steps seen stack =
        takeThrough stop (rest.filter fun n => s.reports n && p n)
  | 0, seen, _ => ⟨[], (List.append_nil _).symm, rfl⟩
  | _ + 1, seen, [] => ⟨[], (List.append_nil _).symm, rfl⟩
  | steps + 1, seen, n :: stack => by
    rw [descend, descendUntil]
    split
    · exact descendUntil_eq p stop steps seen stack
    · obtain ⟨rest, hdescend, huntil⟩ :=
        descendUntil_eq p stop steps (n :: seen) (g.below s n ++ stack)
      refine ⟨n :: rest, by rw [hdescend, List.reverse_cons, List.append_assoc]; rfl, ?_⟩
      rw [huntil, List.filter_cons]
      split
      · rw [takeThrough]
      · rfl

theorem collectUntil_down (hs : s.direction = .down) (p stop : NodeId → Bool) :
    g.collectUntil s p stop = takeThrough stop (g.collect s p) := by
  obtain ⟨rest, hdescend, huntil⟩ :=
    descendUntil_eq (g := g) (s := s) p stop (g.edgeCount + 1) [] [s.start]
  have horder : g.order s = rest := by
    rw [order, hs]
    exact hdescend
  rw [collectUntil, hs, collect_eq, horder]
  exact huntil

/-- A downward search lists what a depth-first preorder by recursion lists, which goes down from a
node along the followed edges in the order of their roles: what can be reached through nodes that
are not pruned, each node once. It stops behind the first match at which it is told to, and the
first match is the head of the list. -/
theorem collect_down (g : Graph) (start : NodeId) (includeStart : Bool) (follow : Role → Bool)
    (prune p stop : NodeId → Bool) :
    let s : Search := ⟨.down, start, includeStart, follow, prune⟩
    g.collect s p = (g.preorder s).filter (fun n => s.reports n && p n) ∧
      (∀ n, ∃ edges : List Edge, g.below s n = edges.map (·.node) ∧
          edges.Perm (if s.expands n then (g.outgoing n).filter (follow ·.role) else []) ∧
            edges.Pairwise (·.role.position ≤ ·.role.position)) ∧
        (∀ n, n ∈ g.collect s p ↔ g.Reached s n ∧ s.reports n ∧ p n) ∧
          (g.collect s p).Nodup ∧
            StopsAt stop (g.collect s p) (g.collectUntil s p stop) ∧
              g.first? s p = (g.collect s p).head? ∧
                (g.collectUntil s p fun _ => true).head? = g.first? s p := by
  intro s
  have hwalk : Walk (g.below s) [] [s.start] (g.order s) := walk_from_start g s
  refine ⟨?_, exists_below_eq g s, fun n => ?_, ?_, ?_, first?_eq g s p, ?_⟩
  · rw [collect_eq, eq_preorderFrom_of_walk hwalk]
    rfl
  · rw [collect_eq, List.mem_filter, mem_iff_reached_of_walk hwalk, Bool.and_eq_true]
  · rw [collect_eq]
    exact (hwalk.nodup List.nodup_nil).filter _
  · rw [collectUntil_down rfl]
    exact stopsAt_takeThrough stop _
  · rw [collectUntil_down rfl, head?_takeThrough, first?_eq]

end Graph

end TypeFlow
