import TypeFlow.Lowering
import TypeFlow.Proofs.Graph.Limbs
import TypeFlow.Proofs.Program.Shape
/-!
# The shape of parsed programs

What the parser promises (`Parsed`): the nodes below the root form a tree, every surface form has
its parts, and operator tokens and keyword arguments occur only as parts of the forms that they
belong to. Forms may be nested in one another in any way.
-/

namespace TypeFlow

namespace Program

/-- Surface forms that occur only as parts of others. -/
def isPart : NodeKind → Bool
  | .surface .opToken | .surface .kwArg => true
  | _ => false

theorem isPart_iff {k : NodeKind} :
    isPart k ↔ k = .surface .opToken ∨ k = .surface .kwArg := by
  unfold isPart
  split <;> simp_all

/-- Surface forms that stand for an expression or a statement. -/
def isForm : NodeKind → Bool
  | .surface .operatorSeq | .surface .dotPipe | .surface .dotted | .surface .forIn => true
  | _ => false

/-- Calls that may have keyword arguments. -/
def takesKeywords (k : NodeKind) : Bool := k = .expr .call || k = .expr .methodCall

/-- The token of a known operator. -/
def isOperator (g : Graph) (n : NodeId) : Bool :=
  g.kind n = .surface .opToken && ((g.name? n).bind BinaryOp.ofToken?).isSome

/-- Operands with operators between them. -/
def alternates (g : Graph) : List NodeId → Bool
  | [] => false
  | [x] => !isPart (g.kind x)
  | x :: t :: rest => !isPart (g.kind x) && isOperator g t && alternates g rest

/-- A node that may stand behind a dot. -/
def isSegment (k : NodeKind) : Bool := k = .expr .ident || k = .expr .call

/-- A first item, with others behind it of which each passes a test. -/
def headed (p : NodeKind → Bool) (g : Graph) : List NodeId → Bool
  | [] => false
  | _ :: rest => rest.all fun x => p (g.kind x)

/-- All structural edges of a node lead to items. -/
def holdsItems (g : Graph) (n : NodeId) : Bool := (g.arms n).all (·.role.isItem)

/-- The roles of the structural edges from a node. -/
def roles (g : Graph) (n : NodeId) : List Role := (g.arms n).map Edge.role

/-- A surface form has its parts and no others; an identifier or a call has no receiver yet. -/
def shaped (g : Graph) (n : NodeId) : Bool :=
  match g.kind n with
  | .surface .operatorSeq => holdsItems g n && alternates g (g.items n)
  | .surface .dotPipe => holdsItems g n && headed (· = .expr .call) g (g.items n)
  | .surface .dotted => holdsItems g n && headed isSegment g (g.items n)
  | .surface .forIn =>
    (roles g n = [.iter, .body] || roles g n = [.body, .iter]) && (g.name? n).isSome
  | .surface .kwArg => roles g n = [.value] && (g.name? n).isSome
  | .surface .opToken => roles g n = []
  | .expr .ident | .expr .call => !(roles g n).contains .receiver
  | _ => true

/-- Operator tokens stand in operator sequences, and keyword arguments among the items of calls. -/
def admits : NodeKind → Role → NodeKind → Bool
  | k, _, .surface .opToken => k = .surface .operatorSeq
  | k, r, .surface .kwArg => takesKeywords k && r.isItem
  | _, _, _ => true

theorem admits_iff {k k' : NodeKind} {r : Role} : admits k r k' ↔
    (k' = .surface .opToken → k = .surface .operatorSeq) ∧
      (k' = .surface .kwArg → takesKeywords k ∧ r.isItem) := by
  unfold admits
  split <;> simp_all

/-- The index of a place does not matter. -/
theorem admits_blur {k k' : NodeKind} {r : Role} : admits k r.blur k' ↔ admits k r k' := by
  rw [admits_iff, admits_iff, Role.isItem_blur]

/-- A program as the parser makes it. -/
structure Parsed (g : Graph) (root : NodeId) : Prop where
  balanced : g.Balanced
  program : g.kind root = .decl .program
  top : g.parents root = []
  tree : ∀ n, g.Below root n → (g.parents n).length ≤ 1
  shaped : ∀ n, g.Below root n → shaped g n
  admits : ∀ n, g.Below root n → ∀ e ∈ g.arms n, admits (g.kind n) e.role (g.kind e.node)

/-! ## Deciding the shape -/

/-- The records of one node agree with those at the other ends of its edges. -/
def BalancedAt (g : Graph) (n : NodeId) : Prop :=
  (∀ e ∈ g.outgoing n, (g.outgoing n).count e = (g.incoming e.node).count ⟨e.role, n⟩) ∧
    ∀ e ∈ g.incoming n, (g.outgoing e.node).count ⟨e.role, n⟩ = (g.incoming n).count e

instance (g : Graph) (n : NodeId) : Decidable (BalancedAt g n) :=
  inferInstanceAs (Decidable (_ ∧ _))

theorem balanced_iff {g : Graph} : g.Balanced ↔ ∀ i < g.size, BalancedAt g ⟨i⟩ := by
  refine ⟨fun h i _ => ⟨fun e _ => h _ _ _, fun e _ => h _ _ _⟩, fun h => ?_⟩
  have hkept : ∀ n, BalancedAt g n := by
    intro n
    by_cases hn : g.has n = true
    · exact h n.index (by simpa [Graph.has] using hn)
    · have hn : g.has n = false := by simpa using hn
      simp [BalancedAt, Graph.outgoing_of_not_has hn, Graph.incoming_of_not_has hn]
  intro s d r
  by_cases hout : (⟨r, d⟩ : Edge) ∈ g.outgoing s
  · exact (hkept s).1 _ hout
  · by_cases hin : (⟨r, s⟩ : Edge) ∈ g.incoming d
    · exact (hkept d).2 _ hin
    · rw [List.count_eq_zero.2 hout, List.count_eq_zero.2 hin]

theorem parsed_iff {g : Graph} {root : NodeId} : Parsed g root ↔
    (∀ i < g.size, BalancedAt g ⟨i⟩) ∧ g.kind root = .decl .program ∧ g.parents root = [] ∧
      ∀ n ∈ g.reachable root fun _ => true,
        (g.parents n).length ≤ 1 ∧ shaped g n ∧
          ∀ e ∈ g.arms n, admits (g.kind n) e.role (g.kind e.node) := by
  simp only [← balanced_iff, Graph.mem_reachable, and_true]
  exact ⟨fun h => ⟨h.balanced, h.program, h.top, fun n hn =>
      ⟨h.tree n hn, h.shaped n hn, h.admits n hn⟩⟩,
    fun ⟨hbalanced, hprogram, htop, h⟩ => ⟨hbalanced, hprogram, htop, fun n hn => (h n hn).1,
      fun n hn => (h n hn).2.1, fun n hn => (h n hn).2.2⟩⟩

instance (g : Graph) (root : NodeId) : Decidable (Parsed g root) :=
  decidable_of_iff _ parsed_iff.symm

/-! ## In a parsed program -/

namespace Parsed

variable {g : Graph} {root n m x y z : NodeId}

theorem has_root (h : Parsed g root) : g.has root := Graph.has_of_kind h.program nofun

theorem has_below (h : Parsed g root) (hn : g.Below root n) : g.has n := by
  cases hn with
  | root => exact h.has_root
  | child _ he _ => exact h.balanced.has_target he

theorem not_mem_parents_root (h : Parsed g root) : x ∉ g.parents root := by
  rw [h.top]
  exact List.not_mem_nil

/-- A node below the root is the root or has a parent below the root. -/
theorem exists_parent (h : Parsed g root) (hn : g.Below root n) (hne : n ≠ root) :
    ∃ y, g.Below root y ∧ y ∈ g.parents n := by
  cases hn with
  | root => exact absurd rfl hne
  | child hy he hs =>
    exact ⟨_, hy, (Graph.mem_parents_limbs h.balanced).2 (Graph.exists_limb he hs)⟩

theorem parent_unique (h : Parsed g root) (hn : g.Below root n) (hx : x ∈ g.parents n)
    (hy : y ∈ g.parents n) : x = y := by
  have hone := h.tree n hn
  rcases hp : g.parents n with _ | ⟨p, ps⟩
  · rw [hp] at hx
    cases hx
  · obtain rfl : ps = [] := by
      rw [hp, List.length_cons] at hone
      exact List.length_eq_zero_iff.1 (by omega)
    rw [hp, List.mem_singleton] at hx hy
    rw [hx, hy]

theorem below_limb (h : Parsed g root) (hy : g.Below root y) (hx : y ∈ g.parents x) :
    g.Below root x := by
  obtain ⟨e, he, rfl⟩ := (Graph.mem_parents_limbs h.balanced).1 hx
  exact hy.limb he

theorem ne_root_of_parent (h : Parsed g root) (hx : y ∈ g.parents x) : x ≠ root := by
  rintro rfl
  exact h.not_mem_parents_root hx

theorem isAttached (h : Parsed g root) (hn : g.Below root n) (hne : n ≠ root) :
    g.isAttached n := by
  obtain ⟨y, -, hy⟩ := h.exists_parent hn hne
  simp only [Graph.isAttached, Bool.not_eq_true', List.isEmpty_eq_false_iff]
  exact List.ne_nil_of_mem hy

theorem admits_limb (h : Parsed g root) (hn : g.Below root n) {e : Edge} (he : e ∈ g.limbs n) :
    Program.admits (g.kind n) e.role (g.kind e.node) := by
  obtain ⟨f, hf, rfl⟩ := Graph.mem_limbsOf.1 he
  exact admits_blur.2 (h.admits n hn f hf)

/-- What hangs neither in an operator sequence nor in a call is no part of a form. -/
theorem isPart_limb (h : Parsed g root) (hn : g.Below root n)
    (hsequence : g.kind n ≠ .surface .operatorSeq) (hcall : takesKeywords (g.kind n) = false)
    {e : Edge} (he : e ∈ g.limbs n) : isPart (g.kind e.node) = false := by
  obtain ⟨htoken, hkeyword⟩ := admits_iff.1 (h.admits_limb hn he)
  cases hpart : isPart (g.kind e.node) with
  | false => rfl
  | true =>
    rcases isPart_iff.1 hpart with hk | hk
    · exact absurd (htoken hk) hsequence
    · cases hcall.symm.trans (hkeyword hk).1

end Parsed

end Program

end TypeFlow
