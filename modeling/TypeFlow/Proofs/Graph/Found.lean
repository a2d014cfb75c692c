import TypeFlow.Graph.Search
/-!
# What a search finds

The visits of a search are the nodes that it comes to, up to a start that it leaves out
(`visits_eq`). `StopsAt` says what is found by a search that stops early, and `takeThrough` is that
part of a list.
-/

namespace TypeFlow

namespace Graph

variable {g : Graph} {s : Search}

/-- Every node that a search comes to, also its start, in the order in which it does. -/
def order (g : Graph) (s : Search) : List NodeId :=
  match s.direction with
  | .down => g.descend s (g.edgeCount + 1) [] [s.start]
  | .up => g.ascend s (g.size + 1) [s.start] [s.start]

theorem visits_eq (g : Graph) (s : Search) : g.visits s = (g.order s).filter s.reports := by
  have hall : s.includeStart = true → (g.order s).filter s.reports = g.order s := fun h =>
    List.filter_eq_self.2 fun n _ => by simp [Search.reports, h]
  have hothers : s.includeStart = false →
      (g.order s).filter s.reports = (g.order s).filter (· ≠ s.start) := fun h =>
    List.filter_congr fun n _ => by simp [Search.reports, h]
  cases h : s.includeStart with
  | true =>
    rw [hall h, visits, if_pos h]
    rfl
  | false =>
    rw [hothers h, visits, if_neg (by simp [h])]
    rfl

theorem collect_eq (g : Graph) (s : Search) (p : NodeId → Bool) :
    g.collect s p = (g.order s).filter fun n => s.reports n && p n := by
  rw [collect, visits_eq, List.filter_filter]
  simp only [Bool.and_comm]

theorem first?_eq (g : Graph) (s : Search) (p : NodeId → Bool) :
    g.first? s p = (g.collect s p).head? := List.head?_filter.symm

/-- A part of a list is its shortest initial part that ends in a member at which a test holds, or
all of it if there is none. -/
def StopsAt (stop : NodeId → Bool) (all part : List NodeId) : Prop :=
  (part = all ∧ ∀ n ∈ all, stop n = false) ∨
    ∃ before n after, all = before ++ n :: after ∧ part = before ++ [n] ∧ stop n = true ∧
      ∀ m ∈ before, stop m = false

/-- A list up to and with its first member that passes a test. -/
def takeThrough (stop : NodeId → Bool) : List NodeId → List NodeId
  | [] => []
  | n :: ns => if stop n then [n] else n :: takeThrough stop ns

theorem stopsAt_takeThrough (stop : NodeId → Bool) : ∀ ns : List NodeId,
    StopsAt stop ns (takeThrough stop ns)
  | [] => Or.inl ⟨rfl, nofun⟩
  | n :: ns => by
    rw [takeThrough]
    by_cases hn : stop n = true
    · exact Or.inr ⟨[], n, ns, rfl, if_pos hn, hn, nofun⟩
    · rw [if_neg hn]
      have hn : stop n = false := by simpa using hn
      rcases stopsAt_takeThrough stop ns with
        ⟨hall, hns⟩ | ⟨before, k, after, rfl, htake, hk, hbefore⟩
      · exact Or.inl ⟨by rw [hall], List.forall_mem_cons.2 ⟨hn, hns⟩⟩
      · exact Or.inr ⟨n :: before, k, after, rfl, by rw [htake]; rfl, hk,
          List.forall_mem_cons.2 ⟨hn, hbefore⟩⟩

theorem head?_takeThrough (stop : NodeId → Bool) (ns : List NodeId) :
    (takeThrough stop ns).head? = ns.head? := by
  cases ns with
  | nil => rfl
  | cons n ns =>
    rw [takeThrough]
    split <;> rfl

end Graph

end TypeFlow
