import TypeFlow.Proofs.Lowering.Sketch
/-!
# Lowering pipes and dotted chains

Handing a value through calls hangs it, call by call, below the last of them
(`yields_handThrough`), and so does receiving a value through segments (`yields_receiveThrough`).
Either rule lowers its chain (`fires_lowerDotPipe`, `fires_lowerDotted`).
-/

namespace TypeFlow

namespace Lowering

open TypeFlow.Graph Program

variable {g h : Graph} {root n x value : NodeId} {busy turned leaves : List NodeId}
  {left : NodeId → List Edge} {free : Multiset NodeId} {bare : List NodeId}

/-! ## Lists put in anew -/

/-- Items pushed one after the other become limbs of their node, and no other node changes. -/
theorem yields_pushAll (c : NodeId) : ∀ {args : List NodeId} {h : Graph}, h.has c →
    (∀ a ∈ args, h.has a) →
    Draft.Yields g (args.forM fun a => Draft.pushItem c a) h fun _ h' =>
      SameNodes h h' ∧ (∀ x, x ≠ c → h'.arms x = h.arms x) ∧
        h'.limbs c = h.limbs c + (args.map fun a => (⟨.item 0, a⟩ : Edge) : List Edge)
  | [], h, _, _ => Draft.yields_pure ⟨SameNodes.refl h, fun _ _ => rfl, by simp⟩
  | a :: args, h, hc, hargs => by
    let h₁ := h.link c (.item (h.nextIndex c)) a
    have hhas : ∀ x, h₁.has x = h.has x := fun x => has_link
    have harms : ∀ x, h₁.arms x =
        if x = c then h.arms x ++ [⟨.item (h.nextIndex c), a⟩] else h.arms x :=
      fun x => arms_link hc rfl
    refine (Draft.yields_edit (fun x hx => ?_) ?_).bind
    · have hx : x = c ∨ x = a := by simpa [Edit.at, Mutation.names] using hx
      rcases hx with rfl | rfl
      · exact hc
      · exact hargs x List.mem_cons_self
    · refine (yields_pushAll c (h := h₁) (by rwa [hhas]) fun b hb => ?_).mono ?_
      · rw [hhas]
        exact hargs b (List.mem_cons_of_mem a hb)
      · rintro _ h' ⟨hsame, hothers, hlimbs⟩
        refine ⟨(sameNodes_link c _ a).trans hsame, fun x hx => ?_, ?_⟩
        · rw [hothers x hx, harms, if_neg hx]
        · rw [hlimbs, Graph.limbs, harms, if_pos rfl, limbsOf_append, limbsOf_singleton,
            List.map_cons, ← Multiset.cons_coe, Multiset.add_cons, add_comm (limbsOf (h.arms c)),
            Multiset.singleton_add, Multiset.cons_add]
          rfl

/-- A node whose list is dropped keeps its other limbs. -/
theorem limbs_clearItems (h : Graph) (c : NodeId) : (h.clearItems c).limbs c =
    limbsOf ((h.arms c).filter fun e => !e.role.isItem) := by
  rw [Graph.limbs, arms_clearItems, if_pos rfl]

/-! ## Pipes -/

/-- A call takes a value in front of its arguments: one more limb is all that comes of it. -/
theorem yields_takeFirst {c : NodeId} {α : Type} {d : Draft α} {Q : α → Graph → Prop}
    (hs : Sketch g busy turned leaves left h (value ::ₘ free) bare) (hc : c ∈ free)
    (hbusy : c ∈ busy) (hbare : c ∉ bare) (hargs : ∀ a ∈ h.items c, h.has a)
    (hd : ∀ h', Sketch g busy turned leaves left h' free bare →
      (∀ x, x ≠ c → h'.arms x = h.arms x) → Draft.Yields g d h' Q) :
    Draft.Yields g (do
      Draft.clearItems c
      Draft.pushItem c value
      (h.items c).forM fun arg => Draft.pushItem c arg
      d) h Q := by
  have hhas : h.has c := hs.has_of_free (Multiset.mem_cons_of_mem hc)
  have hvalue : h.has value := hs.has_of_free (Multiset.mem_cons_self _ _)
  have hcleared : SameNodes h (h.clearItems c) := sameNodes_removeWhere c _
  have hhas' : ∀ x, (h.clearItems c).has x = h.has x := fun x => has_congr hcleared.size
  refine (Draft.yields_edit (fun x hx => ?_) ?_).bind
  · obtain rfl : x = c := by simpa [Edit.at, Mutation.names] using hx
    exact hhas
  have hall : ∀ a ∈ value :: h.items c, (h.clearItems c).has a := by
    intro a ha
    rw [hhas']
    rcases List.mem_cons.1 ha with rfl | ha
    · exact hvalue
    · exact hargs a ha
  have hpush := yields_pushAll (g := g) c (by rwa [hhas']) hall
  have hlist : (do
      Draft.pushItem c value
      (h.items c).forM fun arg => Draft.pushItem c arg
      d : Draft _) = (value :: h.items c).forM (fun arg => Draft.pushItem c arg) >>= fun _ => d :=
    rfl
  rw [hlist]
  refine (hpush.mono fun _ h' hpushed => ?_).bind
  obtain ⟨hsame, hothers, hlimbs⟩ := hpushed
  have hsame' : SameNodes h h' := hcleared.trans hsame
  have hothers' : ∀ x, x ≠ c → h'.arms x = h.arms x := by
    intro x hx
    rw [hothers x hx, arms_clearItems, if_neg hx]
  obtain ⟨made, hg⟩ := hs.growth
  refine hd h' ⟨⟨_, hg.attach (r := .item 0) hsame' hothers' hc (Or.inl hbusy) ?_ (by rintro ⟨⟩)⟩,
    fun x hx => ?_, hs.nodup⟩ hothers'
  · rw [hlimbs, limbs_clearItems, limbs_eq_items h c, List.map_cons, ← Multiset.cons_coe,
      Multiset.add_cons]
  · obtain ⟨hold, hnew, hempty⟩ := hs.empty x hx
    have hxc : x ≠ c := fun h => hbare (h ▸ hx)
    exact ⟨hold, by rwa [has_congr hsame'.size], (hothers' x hxc).trans hempty⟩

/-- A value that is handed through calls hangs below the last of them in the end. -/
theorem yields_handThrough : ∀ {calls : List NodeId} {value : NodeId} {h : Graph},
    Sketch g busy turned leaves left h (value ::ₘ calls) bare → calls.Nodup →
    (∀ c ∈ calls, c ∈ busy ∧ c ∉ bare ∧ h.arms c = g.arms c ∧ ∀ a ∈ g.items c, g.has a) →
    Draft.Yields g (handThrough g value calls) h fun last h' =>
      Sketch g busy turned leaves left h' {last} bare
  | [], value, h, hs, _, _ => Draft.yields_pure (hs.congr rfl)
  | c :: cs, value, h, hs, hnodup, hcalls => by
    obtain ⟨⟨hbusy, hbare, harms, hargs⟩, hcalls⟩ := List.forall_mem_cons.1 hcalls
    obtain ⟨hc, hnodup⟩ := List.nodup_cons.1 hnodup
    have hitems : g.items c = h.items c := by rw [items_eq_arms, items_eq_arms, harms]
    have hold : ∀ x, g.has x → h.has x := by
      obtain ⟨made, hg⟩ := hs.growth
      exact fun x => has_mono hg.size
    rw [handThrough, hitems]
    refine yields_takeFirst hs (Multiset.mem_coe.2 List.mem_cons_self) hbusy hbare
      (fun a ha => hold a (hargs a (hitems ▸ ha))) fun h' hs' hothers => ?_
    refine yields_handThrough hs' hnodup fun d hd => ?_
    have hdc : d ≠ c := fun h => hc (h ▸ hd)
    obtain ⟨hbusy', hbare', harms', hargs'⟩ := hcalls d hd
    exact ⟨hbusy', hbare', (hothers d hdc).trans harms', hargs'⟩

/-! ## Dotted chains -/

/-- The segments of a parsed chain can be read. -/
theorem mapM_readSegment : ∀ {segments : List NodeId},
    (∀ s ∈ segments, isSegment (g.kind s)) → ∃ read, segments.mapM (readSegment g) = .ok read ∧
      read.map Prod.fst = segments ∧ ∀ p ∈ read, afterDot? (g.kind p.1) = some p.2
  | [], _ => ⟨[], rfl, rfl, nofun⟩
  | s :: segments, hseg => by
    obtain ⟨hs, hseg⟩ := List.forall_mem_cons.1 hseg
    obtain ⟨read, hread, hfst, hkinds⟩ := mapM_readSegment hseg
    obtain ⟨k, hk⟩ : ∃ k, afterDot? (g.kind s) = some k := by
      rcases Bool.or_eq_true_iff.1 hs with h | h <;> rw [of_decide_eq_true h] <;> exact ⟨_, rfl⟩
    refine ⟨(s, k) :: read, ?_, by simp [hfst], List.forall_mem_cons.2 ⟨hk, hkinds⟩⟩
    rw [List.mapM_cons, readSegment, hk, Run.ok_bind, hread]
    rfl

theorem Sketch.setKind {k : ExprKind} (hs : Sketch g busy turned leaves left h free bare)
    (hx : x ∈ turned) (hk : afterDot? (g.kind x) = some k) :
    Sketch g busy turned leaves left (h.setKind x (.expr k)) free bare := by
  obtain ⟨made, hg⟩ := hs.growth
  refine ⟨⟨made, hg.setKind hx hk⟩, fun y hy => ?_, hs.nodup⟩
  obtain ⟨hold, hnew, hempty⟩ := hs.empty y hy
  refine ⟨hold, ?_, by rwa [arms_setKind]⟩
  exact (has_congr (size_update _)).trans hnew

/-- A value that is received through segments hangs below the last of them in the end. -/
theorem yields_receiveThrough : ∀ {read : List (NodeId × ExprKind)} {base : NodeId} {h : Graph},
    Sketch g busy turned leaves left h (base ::ₘ (read.map Prod.fst : List NodeId)) bare →
    (read.map Prod.fst).Nodup →
    (∀ p ∈ read, p.1 ∈ busy ∧ p.1 ∈ turned ∧ p.1 ∉ bare ∧ .receiver ∉ roles h p.1 ∧
      afterDot? (g.kind p.1) = some p.2) →
    Draft.Yields g (receiveThrough base read) h fun last h' =>
      Sketch g busy turned leaves left h' {last} bare
  | [], base, h, hs, _, _ => Draft.yields_pure (hs.congr rfl)
  | (s, k) :: rest, base, h, hs, hnodup, hread => by
    obtain ⟨⟨hbusy, hturned, hbare, habsent, hk⟩, hread⟩ := List.forall_mem_cons.1 hread
    rw [List.map_cons, List.nodup_cons] at hnodup
    have hhas : h.has s := hs.has_of_free (Multiset.mem_cons_of_mem (by simp))
    have harms : ∀ x, (h.setKind s (.expr k)).arms x = h.arms x := fun x => arms_setKind _
    rw [receiveThrough]
    refine (Draft.yields_edit (fun x hx => ?_) ?_).bind
    · obtain rfl : x = s := by simpa [Edit.at, Mutation.names] using hx
      exact hhas
    have hs' : Sketch g busy turned leaves left (h.setKind s (.expr k))
        ((Handle.old base).at g ::ₘ ((s :: rest.map Prod.fst : List NodeId) : Multiset NodeId))
        bare := hs.setKind hturned hk
    refine ((yields_setChild (a := s) (r := .receiver) hs' (by simp [Handle.at]) hbare
      (Or.inl hbusy) rfl ?_ fun _ => ?_).mono fun _ h' hset => ?_).bind
    · rw [harms]
      exact habsent
    · have hkind : (h.setKind s (.expr k)).kind s = .expr k := by
        rw [kind_setKind, if_pos ⟨rfl, hhas⟩]
      rw [Handle.at, hkind]
      exact isSegment_of_afterDot? hk
    · obtain ⟨hs'', harms'⟩ := hset
      refine yields_receiveThrough hs'' hnodup.2 fun p hp => ?_
      have hps : p.1 ≠ s := fun h => hnodup.1 (List.mem_map.2 ⟨p, hp, h⟩)
      obtain ⟨hbusy', hturned', hbare', habsent', hk'⟩ := hread p hp
      refine ⟨hbusy', hturned', hbare', ?_, hk'⟩
      rwa [roles, harms', if_neg (by simpa [Handle.at] using hps), harms]

/-! ## The rules -/

/-- The items of a chain are no parts of other forms. -/
theorem isPart_of_item (hp : Parsed g root) (hn : g.Below root n)
    (hk : g.kind n = .surface .dotPipe ∨ g.kind n = .surface .dotted) (hx : x ∈ g.items n) :
    isPart (g.kind x) = false := by
  obtain ⟨r, hr, he⟩ := mem_items.1 hx
  obtain ⟨e, hlimb, rfl⟩ := exists_limb he (Role.isStructural_of_isItem hr)
  rcases hk with hk | hk <;>
    exact hp.isPart_limb hn (by simp [hk]) (by rw [hk]; rfl) hlimb

/-- The place of a chain, whose items hang in the new tree. -/
theorem site_of_chain (hp : Parsed g root) (hn : g.Below root n)
    (hk : g.kind n = .surface .dotPipe ∨ g.kind n = .surface .dotted) (hholds : holdsItems g n)
    (hbusy : ∀ x ∈ busy, (g.kind x).isSurface = false) (hturned : ∀ x ∈ turned, x ∈ g.items n) :
    Site g root n [n] busy turned (g.items n) := by
  have hitem := fun x => mem_items_iff_parent (x := x) hp hholds
  have hform : isForm (g.kind n) := by rcases hk with hk | hk <;> rw [hk] <;> rfl
  exact site_of_form hp hn hform [] nofun nofun
    (fun x hx => ⟨(hitem x).2 hx, isPart_of_item hp hn hk hx⟩)
    (fun x hx => Or.inr ((hitem x).1 hx)) (nodup_items hp hn) hbusy
    fun x hx => (hitem x).2 (hturned x hx)

/-- The rule hands the head of a pipe through calls. -/
theorem effect_of_calls {head : NodeId} {calls : List NodeId} (hitems : g.items n = head :: calls)
    (hcall : ∀ c ∈ calls, g.kind c = .expr .call) :
    lowerDotPipe.effect g n = .ok (some (Draft.patch do
      let last ← handThrough g head calls
      Draft.retire n last)) := by
  have hnone : (calls.find? fun c => g.kind c ≠ .expr .call) = none :=
    List.find?_eq_none.2 fun c hc => by simp [hcall c hc]
  simp only [lowerDotPipe, hitems, hnone]

/-- The rule hands the head of a parsed pipe through its calls. -/
theorem effect_lowerDotPipe (hp : Parsed g root) (hn : g.Below root n)
    (hk : g.kind n = .surface .dotPipe) : holdsItems g n ∧ ∃ head calls,
      g.items n = head :: calls ∧ (∀ c ∈ calls, g.kind c = .expr .call) ∧
      lowerDotPipe.effect g n = .ok (some (Draft.patch do
        let last ← handThrough g head calls
        Draft.retire n last)) := by
  have hshaped := hp.shaped n hn
  simp only [shaped, hk, Bool.and_eq_true] at hshaped
  obtain ⟨hholds, hheaded⟩ := hshaped
  cases hitems : g.items n with
  | nil =>
    rw [hitems] at hheaded
    cases hheaded
  | cons head calls =>
    rw [hitems, headed, List.all_eq_true] at hheaded
    have hcall : ∀ c ∈ calls, g.kind c = .expr .call :=
      fun c hc => of_decide_eq_true (hheaded c hc)
    exact ⟨hholds, head, calls, rfl, hcall, effect_of_calls hitems hcall⟩

theorem fires_lowerDotPipe (hp : Parsed g root) (hn : g.Below root n)
    (hk : g.kind n = .surface .dotPipe) : Fires lowerDotPipe g root n := by
  obtain ⟨hholds, head, calls, hitems, hcall, heffect⟩ := effect_lowerDotPipe hp hn hk
  have hnodup := nodup_items hp hn
  have hsite : Site g root n [n] calls [] (head :: calls) := hitems ▸
    site_of_chain hp hn (Or.inl hk) hholds (fun c hc => by rw [hcall c hc]; rfl) nofun
  have hstart : Sketch g calls [] (head :: calls) g.arms g (head ::ₘ calls) [] :=
    ⟨⟨0, growth_refl fun x hx => hsite.has_leaf hp hx⟩, nofun, List.nodup_nil⟩
  rw [hitems] at hnodup
  refine fires_of_yields hp heffect ((yields_handThrough hstart (List.nodup_cons.1 hnodup).2
    fun c hc => ?_).mono fun last h' hs =>
      yields_retire (b := .old last) hp hsite List.mem_cons_self ?_ hs).bind
  · exact ⟨hc, nofun, rfl, fun a ha => hp.balanced.has_item ha⟩
  · rintro x hx hxn
    exact absurd (List.mem_singleton.1 hx) hxn

/-- The rule lets segments receive what stands before them. -/
theorem effect_of_segments {base : NodeId} {segments : List NodeId}
    {read : List (NodeId × ExprKind)} (hitems : g.items n = base :: segments)
    (hread : segments.mapM (readSegment g) = .ok read) :
    lowerDotted.effect g n = .ok (some (Draft.patch do
      let last ← receiveThrough base read
      Draft.retire n last)) := by
  simp only [lowerDotted, hitems, hread, Run.ok_bind]
  rfl

/-- The rule lets the segments of a parsed chain receive what stands before them. -/
theorem effect_lowerDotted (hp : Parsed g root) (hn : g.Below root n)
    (hk : g.kind n = .surface .dotted) : holdsItems g n ∧ ∃ base segments read,
      g.items n = base :: segments ∧ (∀ s ∈ segments, isSegment (g.kind s)) ∧
      read.map Prod.fst = segments ∧ (∀ p ∈ read, afterDot? (g.kind p.1) = some p.2) ∧
      lowerDotted.effect g n = .ok (some (Draft.patch do
        let last ← receiveThrough base read
        Draft.retire n last)) := by
  have hshaped := hp.shaped n hn
  simp only [shaped, hk, Bool.and_eq_true] at hshaped
  obtain ⟨hholds, hheaded⟩ := hshaped
  cases hitems : g.items n with
  | nil =>
    rw [hitems] at hheaded
    cases hheaded
  | cons base segments =>
    rw [hitems, headed, List.all_eq_true] at hheaded
    obtain ⟨read, hread, hfst, hkinds⟩ := mapM_readSegment hheaded
    exact ⟨hholds, base, segments, read, rfl, hheaded, hfst, hkinds,
      effect_of_segments hitems hread⟩

theorem fires_lowerDotted (hp : Parsed g root) (hn : g.Below root n)
    (hk : g.kind n = .surface .dotted) : Fires lowerDotted g root n := by
  obtain ⟨hholds, base, segments, read, hitems, hheaded, hfst, hkinds, heffect⟩ :=
    effect_lowerDotted hp hn hk
  have hnodup := nodup_items hp hn
  have hsegment : ∀ s ∈ segments, (g.kind s).isSurface = false := by
    intro s hs
    rcases Bool.or_eq_true_iff.1 (hheaded s hs) with h | h <;> rw [of_decide_eq_true h] <;> rfl
  have hsite : Site g root n [n] segments segments (base :: segments) := hitems ▸
    site_of_chain hp hn (Or.inr hk) hholds hsegment fun s hs => by
      rw [hitems]
      exact List.mem_cons_of_mem base hs
  have hstart : Sketch g segments segments (base :: segments) g.arms g
      (base ::ₘ (read.map Prod.fst : List NodeId)) [] := by
    rw [hfst]
    exact ⟨⟨0, growth_refl fun x hx => hsite.has_leaf hp hx⟩, nofun, List.nodup_nil⟩
  rw [hitems] at hnodup
  refine fires_of_yields hp heffect ((yields_receiveThrough hstart
    (hfst ▸ (List.nodup_cons.1 hnodup).2) fun p hpr => ?_).mono fun last h' hs =>
      yields_retire (b := .old last) hp hsite List.mem_cons_self ?_ hs).bind
  · have hmem : p.1 ∈ segments := hfst ▸ List.mem_map_of_mem hpr
    have hbelow : g.Below root p.1 :=
      hn.of_mem_items (hitems ▸ List.mem_cons_of_mem base hmem)
    refine ⟨hmem, hmem, nofun, fun habsent => ?_, hkinds p hpr⟩
    obtain ⟨e, he, hr⟩ := List.mem_map.1 habsent
    refine receiver_of_shaped (hp.shaped p.1 hbelow) (hheaded p.1 hmem) (blur_mem_limbs he) ?_
    rw [Edge.blur, hr]
    rfl
  · rintro x hx hxn
    exact absurd (List.mem_singleton.1 hx) hxn

end Lowering

end TypeFlow
