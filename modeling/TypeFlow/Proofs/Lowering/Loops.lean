import Mathlib.Tactic.Abel
import TypeFlow.Proofs.Lowering.Keywords
/-!
# Lowering loops over a container

The statements of a counting loop are drafted part by part; what is free in between are the tops of
the parts that are ready, with the container and the body that are not yet in place. All of them
hang below one block in the end (`yields_countingLoop`), and the rule lowers the loop
(`fires_lowerForIn`).
-/

namespace TypeFlow

namespace Lowering

open TypeFlow.Graph Program

variable {g h : Graph} {root n iter body : NodeId} {busy turned leaves : List NodeId}
  {left : NodeId → List Edge} {free : Multiset NodeId} {bare : List NodeId} {a b : Handle}

/-! ## Parts of the loop -/

/-- A new identifier is free. -/
theorem yields_newIdent (hs : Sketch g busy turned leaves left h free bare) (name : String) :
    Draft.Yields g (newIdent name) h fun a h' =>
      Sketch g busy turned leaves left h' (a.at g ::ₘ free) bare :=
  yields_leaf hs rfl (.str name)

/-- A sum is one more free node. -/
theorem yields_plusOne (hs : Sketch g busy turned leaves left h free bare) (name : String) :
    Draft.Yields g (plusOne name) h fun a h' =>
      Sketch g busy turned leaves left h' (a.at g ::ₘ free) bare := by
  unfold plusOne
  refine ((yields_node hs (k := .expr (.binary .add)) rfl .none).mono
    fun sum h₁ ⟨_, hs₁⟩ => ?_).bind
  refine ((yields_newIdent hs₁ name).mono fun var h₂ hs₂ => ?_).bind
  refine ((yields_leaf hs₂ (k := .expr .intLit) rfl (.int 1)).mono fun one h₃ hs₃ => ?_).bind
  have hfree : one.at g ::ₘ var.at g ::ₘ sum.at g ::ₘ free =
      var.at g ::ₘ one.at g ::ₘ sum.at g ::ₘ free := Multiset.cons_swap _ _ _
  exact yields_children (hs₃.congr hfree) (Multiset.mem_cons_self _ _) rfl rfl (by decide)
    (by decide) (by decide) fun h₄ hs₄ => Draft.yields_pure hs₄

/-- A statement takes its target and its value in. -/
theorem yields_newBinding {kind : StmtKind}
    (hs : Sketch g busy turned leaves left h (a.at g ::ₘ b.at g ::ₘ free) bare) :
    Draft.Yields g (newBinding kind a b) h fun s h' =>
      Sketch g busy turned leaves left h' (s.at g ::ₘ free) bare := by
  unfold newBinding
  refine ((yields_node hs (k := .stmt kind) rfl .none).mono fun s h₁ ⟨_, hs₁⟩ => ?_).bind
  have hfree : s.at g ::ₘ a.at g ::ₘ b.at g ::ₘ free = a.at g ::ₘ b.at g ::ₘ s.at g ::ₘ free := by
    rw [Multiset.cons_swap (s.at g), Multiset.cons_swap (s.at g)]
  exact yields_children (hs₁.congr hfree) (Multiset.mem_cons_self _ _) rfl rfl (by decide)
    (by decide) (by decide) fun h₂ hs₂ => Draft.yields_pure hs₂

/-- A block or a list takes one more item in; it is the last of the free nodes. -/
theorem yields_takeItem {α : Type} {d : Draft α} {Q : α → Graph → Prop}
    (hs : Sketch g busy turned leaves left h (b.at g ::ₘ free) bare) (ha : a.at g ∈ free)
    (hnew : g.has (a.at g) = false) (hbare : a.at g ∉ bare)
    (hd : ∀ h', Sketch g busy turned leaves left h' free bare → Draft.Yields g d h' Q) :
    Draft.Yields g (do
      Draft.pushItem a b
      d) h Q :=
  ((yields_pushItem hs ha hbare (Or.inr hnew)).mono fun _ h' hs' => hd h' hs').bind

/-- The condition compares the next value of the counter with the length of the container. -/
theorem yields_condition {α : Type} {d : Handle → Draft α} {Q : α → Graph → Prop}
    (hs : Sketch g busy turned leaves left h free bare) (iterator counter : String)
    (hd : ∀ cond h', Sketch g busy turned leaves left h' (cond.at g ::ₘ free) bare →
      Draft.Yields g (d cond) h' Q) :
    Draft.Yields g (do
      let cond ← Draft.node (.expr (.binary .lt)) .none
      let next ← plusOne counter
      let len ← Draft.node (.expr .len) .none
      let measured ← newIdent iterator
      Draft.setChild len .operand measured
      Draft.setChild cond .left next
      Draft.setChild cond .right len
      d cond) h Q := by
  refine ((yields_node hs (k := .expr (.binary .lt)) rfl .none).mono
    fun cond h₁ ⟨_, hs₁⟩ => ?_).bind
  refine ((yields_plusOne hs₁ counter).mono fun next h₂ hs₂ => ?_).bind
  refine ((yields_node hs₂ (k := .expr .len) rfl .none).mono fun len h₃ ⟨_, hs₃⟩ => ?_).bind
  refine ((yields_newIdent hs₃ iterator).mono fun measured h₄ hs₄ => ?_).bind
  refine ((yields_child hs₄ (Multiset.mem_cons_self _ _) rfl (by decide)).mono
    fun _ h₅ ⟨hs₅, _⟩ => ?_).bind
  exact yields_children (hs₅.congr (Multiset.cons_swap _ _ _)) (Multiset.mem_cons_self _ _) rfl rfl
    (by decide) (by decide) (by decide) fun h₆ hs₆ => hd cond h₆ hs₆

/-- The element is read from the container at the place that the counter tells. -/
theorem yields_element {α : Type} {d : Handle → Draft α} {Q : α → Graph → Prop}
    (hs : Sketch g busy turned leaves left h free bare) (iterator counter : String)
    (hd : ∀ element h', Sketch g busy turned leaves left h' (element.at g ::ₘ free) bare →
      Draft.Yields g (d element) h' Q) :
    Draft.Yields g (do
      let element ← Draft.node (.expr .index) .none
      let container ← newIdent iterator
      let position ← newIdent counter
      Draft.setChild element .value container
      Draft.setChild element .key position
      d element) h Q := by
  refine ((yields_node hs (k := .expr .index) rfl .none).mono fun element h₁ ⟨_, hs₁⟩ => ?_).bind
  refine ((yields_newIdent hs₁ iterator).mono fun container h₂ hs₂ => ?_).bind
  refine ((yields_newIdent hs₂ counter).mono fun position h₃ hs₃ => ?_).bind
  exact yields_children (hs₃.congr (Multiset.cons_swap _ _ _)) (Multiset.mem_cons_self _ _) rfl rfl
    (by decide) (by decide) (by decide) fun h₄ hs₄ => hd element h₄ hs₄

/-! ## The loop -/

/-- The counting loop holds the container and the body of the old one. -/
theorem yields_countingLoop (var iterator counter : String)
    (hs : Sketch g busy turned leaves left h {iter, body} []) :
    Draft.Yields g (countingLoop var iter body iterator counter) h fun outer h' =>
      Sketch g busy turned leaves left h' {outer.at g} [] := by
  unfold countingLoop
  refine ((yields_node hs (k := .stmt .block) rfl .none).mono
    fun outer h₁ ⟨houter, hs₁⟩ => ?_).bind
  -- the container and the counter get their first values
  refine ((yields_newIdent hs₁.tail iterator).mono fun iteratorTarget h₂ hs₂ => ?_).bind
  have hfree₂ : iteratorTarget.at g ::ₘ outer.at g ::ₘ {iter, body} =
      iteratorTarget.at g ::ₘ (Handle.old iter).at g ::ₘ outer.at g ::ₘ {body} := by
    simp only [Handle.at_old, Multiset.insert_eq_cons, ← Multiset.singleton_add]
    abel
  refine ((yields_newBinding (hs₂.congr hfree₂)).mono fun initIterator h₃ hs₃ => ?_).bind
  refine ((yields_newIdent hs₃ counter).mono fun counterTarget h₄ hs₄ => ?_).bind
  refine ((yields_leaf hs₄ (k := .expr .intLit) rfl (.int (-1))).mono
    fun minusOne h₅ hs₅ => ?_).bind
  have hfree₅ : minusOne.at g ::ₘ counterTarget.at g ::ₘ initIterator.at g ::ₘ outer.at g ::ₘ
      {body} = counterTarget.at g ::ₘ minusOne.at g ::ₘ initIterator.at g ::ₘ outer.at g ::ₘ
        {body} := Multiset.cons_swap _ _ _
  refine ((yields_newBinding (hs₅.congr hfree₅)).mono fun initCounter h₆ hs₆ => ?_).bind
  -- the condition, the next value of the counter and the element at its place
  refine yields_condition hs₆ iterator counter fun cond h₇ hs₇ => ?_
  refine ((yields_newIdent hs₇ counter).mono fun stepTarget h₈ hs₈ => ?_).bind
  refine ((yields_plusOne hs₈ counter).mono fun stepValue h₉ hs₉ => ?_).bind
  refine ((yields_newBinding (hs₉.congr (Multiset.cons_swap _ _ _))).mono
    fun step h₁₀ hs₁₀ => ?_).bind
  refine yields_element hs₁₀ iterator counter fun element h₁₁ hs₁₁ => ?_
  refine ((yields_newIdent hs₁₁ var).mono fun varTarget h₁₂ hs₁₂ => ?_).bind
  refine ((yields_newBinding hs₁₂).mono fun bind h₁₃ hs₁₃ => ?_).bind
  -- the parts go into the loop and the loop into the block
  refine ((yields_node hs₁₃ (k := .stmt .block) rfl .none).mono
    fun loopBody h₁₄ ⟨hloopBody, hs₁₄⟩ => ?_).bind
  have hfree₁₄ : loopBody.at g ::ₘ bind.at g ::ₘ step.at g ::ₘ cond.at g ::ₘ initCounter.at g ::ₘ
      initIterator.at g ::ₘ outer.at g ::ₘ {body} = step.at g ::ₘ bind.at g ::ₘ
        (Handle.old body).at g ::ₘ loopBody.at g ::ₘ cond.at g ::ₘ initIterator.at g ::ₘ
          initCounter.at g ::ₘ {outer.at g} := by
    simp only [Handle.at_old, ← Multiset.singleton_add]
    abel
  refine yields_takeItem (hs₁₄.tail.congr hfree₁₄) (by simp) hloopBody nofun fun h₁₅ hs₁₅ => ?_
  refine yields_takeItem hs₁₅ (by simp) hloopBody nofun fun h₁₆ hs₁₆ => ?_
  refine yields_takeItem hs₁₆ (by simp) hloopBody nofun fun h₁₇ hs₁₇ => ?_
  refine ((yields_node hs₁₇ (k := .stmt .whileLoop) rfl .none).mono
    fun loop h₁₈ ⟨_, hs₁₈⟩ => ?_).bind
  have hfree₁₈ : loop.at g ::ₘ loopBody.at g ::ₘ cond.at g ::ₘ initIterator.at g ::ₘ
      initCounter.at g ::ₘ {outer.at g} = cond.at g ::ₘ loopBody.at g ::ₘ loop.at g ::ₘ
        initIterator.at g ::ₘ initCounter.at g ::ₘ {outer.at g} := by
    simp only [← Multiset.singleton_add]
    abel
  refine yields_children (hs₁₈.congr hfree₁₈) (Multiset.mem_cons_self _ _) rfl rfl (by decide)
    (by decide) (by decide) fun h₁₉ hs₁₉ => ?_
  have hfree₁₉ : loop.at g ::ₘ initIterator.at g ::ₘ initCounter.at g ::ₘ {outer.at g} =
      initIterator.at g ::ₘ initCounter.at g ::ₘ loop.at g ::ₘ {outer.at g} := by
    simp only [← Multiset.singleton_add]
    abel
  refine yields_takeItem (hs₁₉.congr hfree₁₉) (by simp) houter nofun fun h₂₀ hs₂₀ => ?_
  refine yields_takeItem hs₂₀ (by simp) houter nofun fun h₂₁ hs₂₁ => ?_
  exact yields_takeItem hs₂₁ (by simp) houter nofun fun h₂₂ hs₂₂ => Draft.yields_pure hs₂₂

/-! ## The rule -/

/-- A parsed loop has its container, its body and its variable, and no other child. -/
theorem arms_of_forIn (hx : shaped g n) (hk : g.kind n = .surface .forIn) : ∃ name iter body,
    g.requireName n = .ok name ∧ g.requireChild n .iter = .ok iter ∧
      g.requireChild n .body = .ok body ∧ g.limbs n = {⟨.iter, iter⟩, ⟨.body, body⟩} := by
  simp only [shaped, hk, Bool.and_eq_true, Bool.or_eq_true, decide_eq_true_eq] at hx
  obtain ⟨hroles, hname⟩ := hx
  obtain ⟨name, hname⟩ := Option.isSome_iff_exists.1 hname
  have hchild : ∀ r : Role, r.isStructural →
      g.child? n r = ((g.arms n).find? (·.role = r)).map (·.node) := by
    intro r hr
    rw [child?, arms, List.find?_filter]
    congr 2
    funext e
    by_cases he : e.role = r <;> simp [he, hr]
  have htwo : ∃ iter body, g.arms n = [⟨.iter, iter⟩, ⟨.body, body⟩] ∨
      g.arms n = [⟨.body, body⟩, ⟨.iter, iter⟩] := by
    rcases harms : g.arms n with _ | ⟨⟨r, x⟩, _ | ⟨⟨q, y⟩, _ | ⟨e, es⟩⟩⟩ <;>
      simp [roles, harms] at hroles
    rcases hroles with ⟨rfl, rfl⟩ | ⟨rfl, rfl⟩
    · exact ⟨x, y, Or.inl rfl⟩
    · exact ⟨y, x, Or.inr rfl⟩
  obtain ⟨iter, body, harms⟩ := htwo
  refine ⟨name, iter, body, requireName_eq_ok.2 hname, requireChild_eq_ok.2 ?_,
    requireChild_eq_ok.2 ?_, ?_⟩
  · rw [hchild _ rfl]
    rcases harms with h | h <;> rw [h] <;> rfl
  · rw [hchild _ rfl]
    rcases harms with h | h <;> rw [h] <;> rfl
  · rw [Graph.limbs]
    rcases harms with h | h <;> rw [h]
    · rfl
    · exact Multiset.cons_swap (⟨.body, body⟩ : Edge) ⟨.iter, iter⟩ 0

/-- What a loop holds is no part of another form. -/
theorem isPart_of_forIn (hp : Parsed g root) (hn : g.Below root n)
    (hk : g.kind n = .surface .forIn) {e : Edge} (he : e ∈ g.limbs n) :
    isPart (g.kind e.node) = false :=
  hp.isPart_limb hn (by simp [hk]) (by rw [hk]; rfl) he

/-- The rule takes a parsed loop apart. -/
theorem effect_lowerForIn (hp : Parsed g root) (hn : g.Below root n)
    (hk : g.kind n = .surface .forIn) : ∃ name iter body,
      g.limbs n = {⟨.iter, iter⟩, ⟨.body, body⟩} ∧
      lowerForIn.effect g n = .ok (some (Draft.patch do
        let outer ← countingLoop name iter body (iteratorName n) (counterName n)
        Draft.retire n outer)) := by
  obtain ⟨name, iter, body, hname, hiter, hbody, hlimbs⟩ := arms_of_forIn (hp.shaped n hn) hk
  refine ⟨name, iter, body, hlimbs, ?_⟩
  simp only [lowerForIn, hname, hiter, hbody, Run.ok_bind]
  rfl

theorem fires_lowerForIn (hp : Parsed g root) (hn : g.Below root n)
    (hk : g.kind n = .surface .forIn) : Fires lowerForIn g root n := by
  obtain ⟨name, iter, body, hlimbs, heffect⟩ := effect_lowerForIn hp hn hk
  have hparent : ∀ x, n ∈ g.parents x ↔ x ∈ [iter, body] := by
    intro x
    rw [mem_parents_limbs hp.balanced, hlimbs]
    simp [eq_comm]
  have hne : iter ≠ body := by
    -- else the node would be a parent of its one child twice
    rintro rfl
    have htwo : (g.parents iter).count n = 2 := by
      rw [count_parents_limbs hp.balanced, hlimbs]
      simp [← Multiset.cons_zero]
    have hone := hp.tree iter (hp.below_limb hn ((hparent iter).2 (by simp)))
    have hle := List.count_le_length (a := n) (l := g.parents iter)
    omega
  have hsite : Site g root n [n] [] [] [iter, body] := by
    refine site_of_form hp hn (by rw [hk]; rfl) [] nofun nofun (fun x hx => ⟨(hparent x).2 hx, ?_⟩)
      (fun x hx => Or.inr ((hparent x).1 hx)) (by simpa using hne) nofun nofun
    obtain ⟨e, he, rfl⟩ := (mem_parents_limbs hp.balanced).1 ((hparent x).2 hx)
    exact isPart_of_forIn hp hn hk he
  have hstart : Sketch g [] [] [iter, body] g.arms g {iter, body} [] :=
    ⟨⟨0, growth_refl fun x hx => hsite.has_leaf hp hx⟩, nofun, List.nodup_nil⟩
  refine fires_of_yields hp heffect ((yields_countingLoop name _ _ hstart).mono
    fun outer h' hs => yields_retire hp hsite List.mem_cons_self ?_ hs).bind
  rintro x hx hxn
  exact absurd (List.mem_singleton.1 hx) hxn

end Lowering

end TypeFlow
