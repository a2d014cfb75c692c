import Mathlib.Tactic.Common
import TypeFlow.Node.Id
import TypeFlow.Operator
/-!
# Trees of operators

A tree of operators over operands reads from left to right (`OperatorTree.reading`). It is `Ordered`
if an operator below another one binds at least as strongly where it stands to the left, and more
strongly where it stands to the right. At most one ordered tree reads as a given sequence
(`Ordered.eq_of_reading`), and precedence climbing finds it (`reading_climb`, `ordered_climb`):
the operators that wait for their right operands are at each moment a nest which, closed around the
operand read last, is an ordered tree for the sequence so far.
-/

namespace TypeFlow

namespace Lowering

/-- Operands under binary operators. -/
inductive OperatorTree where
  | operand (node : NodeId)
  | binary (op : BinaryOp) (left right : OperatorTree)
  deriving DecidableEq

namespace OperatorTree

variable {t t' l r l' r' : OperatorTree} {op op' : BinaryOp} {strength : Nat} {x : NodeId}
  {pending : List (OperatorTree × BinaryOp)}

/-- The operands and operators of a tree, from left to right. -/
def reading : OperatorTree → List (NodeId ⊕ BinaryOp)
  | operand x => [.inl x]
  | binary op l r => l.reading ++ .inr op :: r.reading

/-- The outermost operator, if there is one, binds at least so strongly. -/
def Binds (strength : Nat) : OperatorTree → Prop
  | operand _ => True
  | binary op _ _ => strength ≤ op.precedence

/-- An operator to the left of another one binds no less strongly, and one to its right more
strongly. -/
def Ordered : OperatorTree → Prop
  | operand _ => True
  | binary op l r => l.Binds op.precedence ∧ r.Binds (op.precedence + 1) ∧ l.Ordered ∧ r.Ordered

/-! ## One tree for a sequence -/

theorem reading_ne_nil : ∀ t : OperatorTree, t.reading ≠ []
  | operand _ => nofun
  | binary _ _ _ => by simp [reading]

/-- Nothing in an ordered tree binds less strongly than what is outermost. -/
theorem Ordered.le_of_mem (h : t.Ordered) (hb : t.Binds strength) (hop : .inr op ∈ t.reading) :
    strength ≤ op.precedence := by
  induction t generalizing strength with
  | operand x => simp [reading] at hop
  | binary op' l r ihl ihr =>
    obtain ⟨hl, hr, hlo, hro⟩ := h
    have hb : strength ≤ op'.precedence := hb
    rcases List.mem_append.1 hop with hop | hop
    · exact Nat.le_trans hb (ihl hlo hl hop)
    · rcases List.mem_cons.1 hop with heq | hop
      · rwa [Sum.inr.inj heq]
      · have := ihr hro hr hop
        omega

/-- Two ordered trees do not divide one sequence at different operators: the one that comes first
would stand in the left operand of the other, and the other in its right operand. -/
theorem Ordered.not_divided (h : (binary op l r).Ordered) (h' : (binary op' l' r').Ordered)
    {between : List (NodeId ⊕ BinaryOp)} (hl : l'.reading = l.reading ++ .inr op :: between)
    (hr : r.reading = between ++ .inr op' :: r'.reading) : False := by
  have hle : op'.precedence ≤ op.precedence := h'.2.2.1.le_of_mem h'.1 (by simp [hl])
  have hlt : op.precedence + 1 ≤ op'.precedence := h.2.2.2.le_of_mem h.2.1 (by simp [hr])
  omega

/-- At most one ordered tree reads as a given sequence. -/
theorem Ordered.eq_of_reading (h : t.Ordered) (h' : t'.Ordered) (heq : t.reading = t'.reading) :
    t = t' := by
  induction t generalizing t' with
  | operand x =>
    cases t' with
    | operand y => rw [Sum.inl.inj (List.cons.inj heq).1]
    | binary op' l' r' => simp [reading, List.singleton_eq_append_iff, reading_ne_nil] at heq
  | binary op l r ihl ihr =>
    cases t' with
    | operand y => simp [reading, List.append_eq_singleton_iff, reading_ne_nil] at heq
    | binary op' l' r' =>
      rcases List.append_eq_append_iff.1 heq with ⟨between, hl, hr⟩ | ⟨between, hl, hr⟩
      · cases between with
        | nil =>
          obtain ⟨hop, hr⟩ := List.cons.inj hr
          rw [Sum.inr.inj hop, ihl h.2.2.1 h'.2.2.1 (by simpa using hl.symm),
            ihr h.2.2.2 h'.2.2.2 hr]
        | cons z zs =>
          obtain ⟨rfl, hrest⟩ := List.cons.inj hr
          exact (h.not_divided h' hl hrest).elim
      · cases between with
        | nil =>
          obtain ⟨hop, hr⟩ := List.cons.inj hr
          rw [Sum.inr.inj hop, ihl h.2.2.1 h'.2.2.1 (by simpa using hl),
            ihr h.2.2.2 h'.2.2.2 hr.symm]
        | cons z zs =>
          obtain ⟨rfl, hrest⟩ := List.cons.inj hr
          exact (h'.not_divided h hl hrest).elim

/-! ## Climbing -/

/-- Give an operand to the waiting operators that bind at least as strongly as told, innermost
first. -/
def close (strength : Nat) : List (OperatorTree × BinaryOp) → OperatorTree →
    List (OperatorTree × BinaryOp) × OperatorTree
  | [], right => ([], right)
  | (left, op) :: pending, right =>
    if strength ≤ op.precedence then close strength pending (binary op left right)
    else ((left, op) :: pending, right)

/-- Read the rest of a sequence behind an operand. -/
def climb : List (OperatorTree × BinaryOp) → NodeId → List (BinaryOp × NodeId) → OperatorTree
  | pending, x, [] => (close 0 pending (operand x)).2
  | pending, x, (op, y) :: rest =>
    climb (((close op.precedence pending (operand x)).2, op) ::
      (close op.precedence pending (operand x)).1) y rest

/-- All operators that wait, closed around an operand. -/
def nest : List (OperatorTree × BinaryOp) → OperatorTree → OperatorTree
  | [], right => right
  | (left, op) :: pending, right => nest pending (binary op left right)

/-- Closing leaves the nest as it is. -/
theorem nest_close (strength : Nat) (pending : List (OperatorTree × BinaryOp)) (t : OperatorTree) :
    nest (close strength pending t).1 (close strength pending t).2 = nest pending t := by
  fun_induction close strength pending t with
  | case1 => rfl
  | case2 t left op pending h ih => exact ih
  | case3 => rfl

/-- Where closing stops, the operators that still wait bind less strongly. -/
theorem lt_of_close (strength : Nat) (pending : List (OperatorTree × BinaryOp))
    (t : OperatorTree) : ∀ q ∈ (close strength pending t).1.head?, q.2.precedence < strength := by
  fun_induction close strength pending t with
  | case1 => nofun
  | case2 t left op pending h ih => exact ih
  | case3 t left op pending h => simpa using h

/-- What closing makes binds as strongly as it was asked to. -/
theorem binds_close {pending : List (OperatorTree × BinaryOp)} (h : t.Binds strength) :
    (close strength pending t).2.Binds strength := by
  fun_induction close strength pending t with
  | case1 => exact h
  | case2 t left op pending hle ih => exact ih hle
  | case3 => exact h

theorem close_zero (pending : List (OperatorTree × BinaryOp)) (t : OperatorTree) :
    close 0 pending t = ([], nest pending t) := by
  fun_induction nest pending t with
  | case1 => rfl
  | case2 t left op pending ih => rw [close, if_pos (Nat.zero_le _), ih]

/-- Some sequence stands in front of the operand that a nest is closed around. -/
theorem reading_nest : ∀ pending : List (OperatorTree × BinaryOp),
    ∃ before, ∀ t, (nest pending t).reading = before ++ t.reading
  | [] => ⟨[], fun _ => rfl⟩
  | (left, op) :: pending => by
    obtain ⟨before, hbefore⟩ := reading_nest pending
    exact ⟨before ++ left.reading ++ [.inr op], fun t => by simp [nest, hbefore, reading]⟩

/-- Climbing reads all of the sequence. -/
theorem reading_climb : ∀ (rest : List (BinaryOp × NodeId))
    (pending : List (OperatorTree × BinaryOp)) (x : NodeId),
    (climb pending x rest).reading =
      (nest pending (operand x)).reading ++ rest.flatMap fun q => [.inr q.1, .inl q.2]
  | [], pending, x => by simp [climb, close_zero]
  | (op, y) :: rest, pending, x => by
    obtain ⟨before, hbefore⟩ := reading_nest (close op.precedence pending (operand x)).1
    rw [climb, reading_climb rest, nest, hbefore, ← nest_close op.precedence pending, hbefore]
    simp [reading]

/-- What stands inside an ordered nest is ordered, and may stand to the right of the innermost of
the operators that wait. -/
theorem Ordered.of_nest (h : (nest pending t).Ordered) :
    t.Ordered ∧ ∀ q ∈ pending.head?, t.Binds (q.2.precedence + 1) := by
  induction pending generalizing t with
  | nil => exact ⟨h, nofun⟩
  | cons p pending ih =>
    obtain ⟨hp, -⟩ := ih h
    refine ⟨hp.2.2.2, fun q hq => ?_⟩
    obtain rfl : p = q := by simpa using hq
    exact hp.2.1

/-- Inside an ordered nest one operand may be put for another. -/
theorem Ordered.nest (h : (nest pending t).Ordered) (ht : t'.Ordered)
    (hbinds : ∀ q ∈ pending.head?, t'.Binds (q.2.precedence + 1)) :
    (OperatorTree.nest pending t').Ordered := by
  induction pending generalizing t t' with
  | nil => exact ht
  | cons p pending ih =>
    obtain ⟨hp, hbelow⟩ : (binary p.2 p.1 t).Ordered ∧
        ∀ q ∈ pending.head?, (binary p.2 p.1 t).Binds (q.2.precedence + 1) := Ordered.of_nest h
    exact ih h ⟨hp.1, hbinds p rfl, hp.2.2.1, ht⟩ fun q hq => hbelow q hq

/-- Climbing makes an ordered tree. -/
theorem ordered_climb : ∀ (rest : List (BinaryOp × NodeId))
    {pending : List (OperatorTree × BinaryOp)} {x : NodeId},
    (nest pending (operand x)).Ordered → (climb pending x rest).Ordered
  | [], pending, x, h => by rwa [climb, close_zero]
  | (op, y) :: rest, pending, x, h => by
    rw [← nest_close op.precedence] at h
    refine ordered_climb rest ?_
    -- the new operator binds more strongly than those that still wait, and no more than the tree
    -- that becomes its left operand
    refine h.nest ⟨binds_close trivial, trivial, (Ordered.of_nest h).1, trivial⟩ fun q hq => ?_
    exact lt_of_close op.precedence pending (operand x) q hq

end OperatorTree

end Lowering

end TypeFlow
