import TypeFlow.Lowering.OperatorSequence
import TypeFlow.Proofs.Graph.Children
import TypeFlow.Proofs.Run
/-!
# Spelling an operator sequence

A sequence can be read exactly if it spells operands and the tokens of operators in turn (`Spells`,
`readSequence_eq_ok_iff`). Then the rule for sequences has a patch (`effect_of_spells`); every other
list stops it with a fault (`effect_eq_error`).
-/

namespace TypeFlow

namespace Lowering

open TypeFlow.Graph

variable {g : Graph} {n x y : NodeId} {op : BinaryOp} {first : NodeId}
  {rest : List (BinaryOp × NodeId)} {xs : List NodeId} {fault : Fault}

/-! ## Reading -/

/-- A list of nodes alternates operands, which are no tokens, with the tokens of operators. -/
inductive Spells (g : Graph) : List NodeId → NodeId → List (BinaryOp × NodeId) → Prop
  | operand {x : NodeId} (hx : g.kind x ≠ .surface .opToken) : Spells g [x] x []
  | operator {x t y : NodeId} {op : BinaryOp} {xs : List NodeId} {rest : List (BinaryOp × NodeId)}
      (hx : g.kind x ≠ .surface .opToken) (ht : g.kind t = .surface .opToken)
      (hop : (g.name? t).bind BinaryOp.ofToken? = some op) (hrest : Spells g xs y rest) :
      Spells g (x :: t :: xs) x ((op, y) :: rest)

theorem operandAt_eq_ok_iff : operandAt g x = .ok y ↔ g.kind x ≠ .surface .opToken ∧ x = y := by
  unfold operandAt
  split
  · next h => simp [h]
  · next h => simp [h]

theorem operatorAt_eq_ok_iff : operatorAt g x = .ok op ↔
    g.kind x = .surface .opToken ∧ (g.name? x).bind BinaryOp.ofToken? = some op := by
  unfold operatorAt requireName
  split
  · next h =>
    cases hname : g.name? x with
    | none => simp [h, Run.error_bind]
    | some token =>
      simp only [h, Run.ok_bind, Option.bind_some, true_and]
      cases BinaryOp.ofToken? token <;> simp
  · next h => simp [h]

theorem Spells.head (h : Spells g xs first rest) :
    g.kind first ≠ .surface .opToken ∧ ∃ tail, xs = first :: tail := by
  cases h with
  | operand hx => exact ⟨hx, _, rfl⟩
  | operator hx => exact ⟨hx, _, rfl⟩

/-- Behind an operand, the rest of a list can be read exactly if it spells on. -/
theorem readOperators_eq_ok_iff : ∀ {xs : List NodeId} {rest : List (BinaryOp × NodeId)}
    {x : NodeId}, g.kind x ≠ .surface .opToken →
      (readOperators g fault xs = .ok rest ↔ Spells g (x :: xs) x rest)
  | [], rest, x, hx => by
    constructor
    · intro h
      obtain rfl := Except.ok.inj h
      exact .operand hx
    · rintro (_ | _)
      rfl
  | [t], rest, x, hx => by
    constructor
    · nofun
    · rintro (_ | ⟨-, -, -, h⟩)
      cases h
  | t :: y :: xs, rest, x, hx => by
    rw [readOperators]
    simp only [Run.bind_eq_ok, Run.pure_eq_ok, operatorAt_eq_ok_iff, operandAt_eq_ok_iff]
    constructor
    · rintro ⟨op, ⟨ht, hop⟩, z, ⟨hy, rfl⟩, more, hmore, rfl⟩
      exact .operator hx ht hop ((readOperators_eq_ok_iff hy).1 hmore)
    · rintro (_ | ⟨-, ht, hop, hrest⟩)
      obtain ⟨hy, tail, hxs⟩ := hrest.head
      obtain ⟨rfl, -⟩ := List.cons.inj hxs
      exact ⟨_, ⟨ht, hop⟩, y, ⟨hy, rfl⟩, _, (readOperators_eq_ok_iff hy).2 hrest, rfl⟩

theorem Spells.length (h : Spells g xs first rest) : xs.length = 2 * rest.length + 1 := by
  induction h with
  | operand => rfl
  | operator _ _ _ _ ih =>
    simp only [List.length_cons, ih]
    omega

/-- A sequence can be read exactly if its items spell operands and operators in turn. -/
theorem readSequence_eq_ok_iff :
    readSequence g n = .ok (first, rest) ↔ Spells g (g.items n) first rest := by
  unfold readSequence
  generalize g.items n = items
  constructor
  · intro h
    by_cases heven : items.length % 2 = 0
    · simp only [heven, if_true, reduceCtorEq] at h
    · simp only [heven, if_false] at h
      cases items with
      | nil => cases h
      | cons x xs =>
        obtain ⟨_, hfirst, h⟩ := Run.bind_eq_ok.1 h
        obtain ⟨hx, rfl⟩ := operandAt_eq_ok_iff.1 hfirst
        obtain ⟨more, hmore, h⟩ := Run.bind_eq_ok.1 h
        obtain ⟨rfl, rfl⟩ := Prod.mk.inj (Run.pure_eq_ok.1 h)
        exact (readOperators_eq_ok_iff hx).1 hmore
  · intro h
    have hlength := h.length
    have hodd : items.length % 2 ≠ 0 := by omega
    obtain ⟨hx, tail, rfl⟩ := h.head
    simp only [hodd, if_false]
    rw [operandAt_eq_ok_iff.2 ⟨hx, rfl⟩, Run.ok_bind, (readOperators_eq_ok_iff hx).2 h]
    rfl

/-- The operands that are read are items. -/
theorem Spells.mem (h : Spells g xs first rest) :
    ∀ x ∈ first :: rest.map Prod.snd, x ∈ xs := by
  induction h with
  | operand => simp
  | operator _ _ _ _ ih =>
    intro x hx
    rcases List.mem_cons.1 hx with rfl | hx
    · exact List.mem_cons_self
    · exact List.mem_cons_of_mem _ (List.mem_cons_of_mem _ (ih x hx))

/-! ## The patch -/

/-- The patch of the rule for a sequence that can be read. -/
def foldPatch (n first : NodeId) (rest : List (BinaryOp × NodeId)) : Patch := Draft.patch do
  let root ← climb [] first rest
  Draft.retire n root

theorem effect_of_spells (h : Spells g (g.items n) first rest) :
    foldOperators.effect g n = .ok (some (foldPatch n first rest)) := by
  simp only [foldOperators, readSequence_eq_ok_iff.2 h, Run.ok_bind]
  rfl

/-- What cannot be read stops the rule. -/
theorem effect_eq_error (h : ¬∃ first rest, Spells g (g.items n) first rest) :
    ∃ fault, foldOperators.effect g n = .error fault := by
  cases hread : readSequence g n with
  | ok answer => exact absurd ⟨answer.1, answer.2, readSequence_eq_ok_iff.1 hread⟩ h
  | error fault =>
    refine ⟨fault, ?_⟩
    simp only [foldOperators, hread, Run.error_bind]

end Lowering

end TypeFlow
