import TypeFlow.Proofs.Lowering.Sequence
import TypeFlow.Proofs.Lowering.Sketch
/-!
# Folding operator sequences

A parsed sequence spells its operators and operands (`exists_spells`), and each step of precedence
climbing makes one free node of two, so that one tree over all operands is left
(`yields_climb`). The rule lowers the sequence (`fires_foldOperators`).
-/

namespace TypeFlow

namespace Lowering

open TypeFlow.Graph Program

variable {g h : Graph} {root n x : NodeId}

/-! ## Reading -/

theorem ne_opToken (hx : isPart (g.kind x) = false) : g.kind x ≠ .surface .opToken := by
  intro h
  rw [h] at hx
  cases hx

theorem isPart_of_isOperator (hx : isOperator g x) : isPart (g.kind x) := by
  rw [of_decide_eq_true (Bool.and_eq_true_iff.1 hx).1]
  rfl

/-- A parsed sequence spells its operands, which are all of its items but the tokens. -/
theorem exists_spells : ∀ {xs : List NodeId}, alternates g xs → ∃ first rest,
    Spells g xs first rest ∧
      first :: rest.map Prod.snd = xs.filter fun y => !isPart (g.kind y)
  | [x], h => by
    have hx : isPart (g.kind x) = false := by simpa [alternates] using h
    exact ⟨x, [], .operand (ne_opToken hx), by simp [hx]⟩
  | x :: t :: xs, h => by
    rw [alternates, Bool.and_eq_true, Bool.and_eq_true] at h
    obtain ⟨⟨hx, ht⟩, hrest⟩ := h
    have hx : isPart (g.kind x) = false := by simpa using hx
    obtain ⟨y, rest, hspells, hoperands⟩ := exists_spells hrest
    obtain ⟨hk, hname⟩ := Bool.and_eq_true_iff.1 ht
    obtain ⟨op, hop⟩ := Option.isSome_iff_exists.1 hname
    refine ⟨x, (op, y) :: rest, .operator (ne_opToken hx) (of_decide_eq_true hk) hop hspells, ?_⟩
    rw [List.map_cons, hoperands]
    simp [hx, isPart_of_isOperator ht]

/-! ## Folding -/

section Folding

variable {busy turned leaves : List NodeId} {left : NodeId → List Edge} {free : Multiset NodeId}
  {bare : List NodeId} {a b : Handle}

/-- Two free nodes become one. -/
theorem yields_combine (op : BinaryOp)
    (hs : Sketch g busy turned leaves left h (a.at g ::ₘ b.at g ::ₘ free) bare) :
    Draft.Yields g (combine op a b) h fun c h' =>
      Sketch g busy turned leaves left h' (c.at g ::ₘ free) bare := by
  unfold combine
  refine ((yields_node hs rfl .none).mono fun c h' hs' => ?_).bind
  have hfree : c.at g ::ₘ a.at g ::ₘ b.at g ::ₘ free = a.at g ::ₘ b.at g ::ₘ c.at g ::ₘ free := by
    rw [Multiset.cons_swap, Multiset.cons_swap (c.at g) (b.at g)]
  exact yields_children (hs'.2.congr hfree) (Multiset.mem_cons_self _ _) rfl rfl (by decide)
    (by decide) (by decide) fun h'' hs'' => Draft.yields_pure hs''

/-- The left operands of the operators that wait. -/
def waiting (g : Graph) (pending : List (Handle × BinaryOp)) : Multiset NodeId :=
  (pending.map fun p => p.1.at g : List NodeId)

theorem waiting_cons (a : Handle) (op : BinaryOp) (pending : List (Handle × BinaryOp)) :
    waiting g ((a, op) :: pending) = a.at g ::ₘ waiting g pending := rfl

/-- Closing takes waiting operands in. With no strength asked for, none waits any longer. -/
theorem yields_close (strength : Nat) : ∀ {pending : List (Handle × BinaryOp)} {right : Handle}
    {h : Graph}, Sketch g busy turned leaves left h
      (right.at g ::ₘ (waiting g pending + free)) bare →
    Draft.Yields g (close strength pending right) h fun answer h' =>
      Sketch g busy turned leaves left h'
        (answer.2.at g ::ₘ (waiting g answer.1 + free)) bare ∧ (strength = 0 → answer.1 = [])
  | [], right, h, hs => Draft.yields_pure ⟨hs, fun _ => rfl⟩
  | (a, op) :: pending, right, h, hs => by
    rw [close]
    split
    · have hfree : right.at g ::ₘ (waiting g ((a, op) :: pending) + free) =
          a.at g ::ₘ right.at g ::ₘ (waiting g pending + free) := by
        rw [waiting_cons, Multiset.cons_add, Multiset.cons_swap]
      exact ((yields_combine op (hs.congr hfree)).mono fun c h' hs' =>
        yields_close strength hs').bind
    · next hlt => exact Draft.yields_pure ⟨hs, fun h => absurd (h ▸ Nat.zero_le _) hlt⟩

/-- Climbing leaves one free node. -/
theorem yields_climb : ∀ {rest : List (BinaryOp × NodeId)} {pending : List (Handle × BinaryOp)}
    {last : Handle} {h : Graph}, Sketch g busy turned leaves left h
      (last.at g ::ₘ (waiting g pending + (rest.map Prod.snd : List NodeId))) bare →
    Draft.Yields g (climb pending last rest) h fun c h' =>
      Sketch g busy turned leaves left h' {c.at g} bare
  | [], pending, last, h, hs => by
    rw [climb]
    refine ((yields_close 0 hs).mono fun answer h' hanswer => ?_).bind
    obtain ⟨hs', hnone⟩ := hanswer
    refine Draft.yields_pure (hs'.congr ?_)
    rw [hnone rfl]
    rfl
  | (op, x) :: rest, pending, last, h, hs => by
    rw [climb]
    refine ((yields_close op.precedence hs).mono fun answer h' hanswer => ?_).bind
    refine yields_climb (hanswer.1.congr ?_)
    rw [waiting_cons, List.map_cons, ← Multiset.cons_coe, Multiset.add_cons, Multiset.cons_add,
      Multiset.cons_swap]
    rfl

end Folding

/-! ## The rule -/

/-- The tokens of a sequence hold nothing. -/
theorem limbs_eq_zero_of_token (hp : Parsed g root) (hx : g.Below root x)
    (hk : g.kind x = .surface .opToken) : g.limbs x = 0 := by
  have hroles : roles g x = [] := by simpa [shaped, hk] using hp.shaped x hx
  rw [limbs, List.map_eq_nil_iff.1 hroles]
  rfl

/-- The rule folds the operands of a parsed sequence. -/
theorem effect_foldOperators (hp : Parsed g root) (hn : g.Below root n)
    (hk : g.kind n = .surface .operatorSeq) :
    holdsItems g n ∧ ∃ (first : NodeId) (rest : List (BinaryOp × NodeId)),
      foldOperators.effect g n = .ok (some (Draft.patch do
        let root ← climb [] first rest
        Draft.retire n root)) ∧
      first :: rest.map Prod.snd = (g.items n).filter fun y => !isPart (g.kind y) := by
  have hshaped := hp.shaped n hn
  simp only [shaped, hk, Bool.and_eq_true] at hshaped
  obtain ⟨hholds, halternates⟩ := hshaped
  obtain ⟨first, rest, hspells, hoperands⟩ := exists_spells halternates
  exact ⟨hholds, first, rest, effect_of_spells hspells, hoperands⟩

theorem fires_foldOperators (hp : Parsed g root) (hn : g.Below root n)
    (hk : g.kind n = .surface .operatorSeq) : Fires foldOperators g root n := by
  obtain ⟨hholds, first, rest, heffect, hoperands⟩ := effect_foldOperators hp hn hk
  have hitem := fun x => mem_items_iff_parent (x := x) hp hholds
  have hparts : ∀ x ∈ (g.items n).filter fun y => isPart (g.kind y),
      n ∈ g.parents x ∧ isPart (g.kind x) := by
    intro x hx
    obtain ⟨hx, hpart⟩ := List.mem_filter.1 hx
    exact ⟨(hitem x).2 hx, hpart⟩
  have hempty : ∀ x ∈ (g.items n).filter fun y => isPart (g.kind y), g.limbs x = 0 := by
    intro x hx
    obtain ⟨hx, hpart⟩ := List.mem_filter.1 hx
    obtain ⟨r, hr, he⟩ := mem_items.1 hx
    have hadmits := admits_iff.1 (hp.admits n hn ⟨r, x⟩
      (mem_arms.2 ⟨he, Role.isStructural_of_isItem hr⟩))
    refine limbs_eq_zero_of_token hp (hn.of_mem_items hx) ?_
    rcases isPart_iff.1 hpart with h | h
    · exact h
    · have htakes := (hadmits.2 h).1
      rw [hk] at htakes
      cases htakes
  have hsite : Site g root n (n :: (g.items n).filter fun y => isPart (g.kind y)) [] []
      (first :: rest.map Prod.snd) := by
    refine site_of_form hp hn (by rw [hk]; rfl) _ hparts hempty (fun x hx => ?_) (fun x hx => ?_)
      ?_ nofun nofun
    · rw [hoperands] at hx
      obtain ⟨hx, hpart⟩ := List.mem_filter.1 hx
      exact ⟨(hitem x).2 hx, by simpa using hpart⟩
    · rw [hoperands]
      have hx := (hitem x).1 hx
      cases hpart : isPart (g.kind x) with
      | true => exact Or.inl (List.mem_filter.2 ⟨hx, hpart⟩)
      | false => exact Or.inr (List.mem_filter.2 ⟨hx, by simp [hpart]⟩)
    · rw [hoperands]
      exact (nodup_items hp hn).filter _
  refine fires_of_yields hp heffect ((yields_climb ?_).mono fun c h' hs =>
    yields_retire hp hsite List.mem_cons_self (fun x hx hxn => ?_) hs).bind
  · exact ⟨⟨0, growth_refl fun x hx => hsite.has_leaf hp hx⟩, nofun, List.nodup_nil⟩
  · exact hempty x ((List.mem_cons.1 hx).resolve_left hxn)

end Lowering

end TypeFlow
