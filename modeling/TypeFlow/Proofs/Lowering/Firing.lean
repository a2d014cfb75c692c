import TypeFlow.Proofs.Lowering.Surgery
/-!
# One task less

Lowering has a task at each form and at each call with keyword arguments (`task?`). A surgery
leaves a program that the parser could have made, in which the task at its place is done and every
other one is still there (`Surgery.lowers`).
-/

namespace TypeFlow

namespace Lowering

open TypeFlow.Graph Program

/-! ## Tasks -/

/-- The surface form that is to be lowered at a node: the node itself, or the keyword arguments of
a call. -/
def task? (g : Graph) (n : NodeId) : Option SurfaceKind :=
  match g.kind n with
  | .surface k => if isForm (.surface k) then some k else none
  | k => if takesKeywords k && (g.items n).any (isKwArg g) then some .kwArg else none

/-- What a firing at a node of a parsed program achieves. -/
structure Lowers (g : Graph) (root n : NodeId) (g' : Graph) : Prop where
  parsed : Parsed g' root
  tasks : ∀ x f, g'.Below root x ∧ task? g' x = some f ↔
    g.Below root x ∧ task? g x = some f ∧ x ≠ n
  stays : ∀ x, g.Below root x → (g.kind x).isSurface = false →
    g'.Below root x ∧ (g'.kind x).isSurface = false

theorem task?_eq_some {g : Graph} {n : NodeId} {f : SurfaceKind} : task? g n = some f ↔
    g.kind n = .surface f ∧ isForm (.surface f) ∨
      f = .kwArg ∧ takesKeywords (g.kind n) ∧ ∃ x ∈ g.items n, g.kind x = .surface .kwArg := by
  unfold task?
  have hany : (g.items n).any (isKwArg g) ↔ ∃ x ∈ g.items n, g.kind x = .surface .kwArg := by
    simp [isKwArg]
  split
  · next k hk =>
    rw [hk]
    by_cases hform : isForm (.surface k)
    · rw [if_pos hform]
      constructor
      · intro h
        obtain rfl := Option.some.inj h
        exact Or.inl ⟨rfl, hform⟩
      · rintro (⟨h, -⟩ | ⟨-, h, -⟩)
        · cases h
          rfl
        · cases h
    · rw [if_neg hform]
      constructor
      · intro h
        cases h
      · rintro (⟨h, hf⟩ | ⟨-, h, -⟩)
        · cases h
          exact absurd hf hform
        · cases h
  · next k hk =>
    rw [← hany]
    by_cases hkw : (takesKeywords (g.kind n) && (g.items n).any (isKwArg g)) = true
    · rw [if_pos hkw]
      rw [Bool.and_eq_true] at hkw
      constructor
      · intro h
        exact Or.inr ⟨(Option.some.inj h).symm, hkw⟩
      · rintro (⟨h, -⟩ | ⟨rfl, -⟩)
        · exact absurd h (hk f)
        · rfl
    · rw [if_neg hkw]
      constructor
      · intro h
        cases h
      · rintro (⟨h, -⟩ | ⟨-, h⟩)
        · exact absurd h (hk f)
        · exact absurd (by rw [Bool.and_eq_true]; exact h) hkw

/-- In a parsed program, the keyword arguments of a call are those of its children that are. -/
theorem task?_iff {g : Graph} {root n : NodeId} {f : SurfaceKind} (hp : Parsed g root)
    (hn : g.Below root n) : task? g n = some f ↔
      g.kind n = .surface f ∧ isForm (.surface f) ∨ f = .kwArg ∧ takesKeywords (g.kind n) ∧
        ∃ e ∈ g.limbs n, g.kind e.node = .surface .kwArg := by
  rw [task?_eq_some]
  refine or_congr Iff.rfl (and_congr Iff.rfl (and_congr Iff.rfl ⟨?_, ?_⟩))
  · rintro ⟨x, hx, hk⟩
    refine ⟨⟨.item 0, x⟩, ?_, hk⟩
    rw [limbs_eq_items]
    exact Multiset.mem_add.2 (Or.inr (Multiset.mem_coe.2 (List.mem_map.2 ⟨x, hx, rfl⟩)))
  · rintro ⟨e, he, hk⟩
    have hadmits := hp.admits_limb hn he
    rw [hk] at hadmits
    have hitem : e.role.isItem := (Bool.and_eq_true_iff.1 hadmits).2
    rw [limbs_eq_items] at he
    rcases Multiset.mem_add.1 he with he | he
    · obtain ⟨a, ha, rfl⟩ := mem_limbsOf.1 he
      have hnot := (List.mem_filter.1 ha).2
      rw [Edge.blur, Role.isItem_blur] at hitem
      simp [hitem] at hnot
    · obtain ⟨x, hx, rfl⟩ := List.mem_map.1 (Multiset.mem_coe.1 he)
      exact ⟨x, hx, hk⟩

/-! ## The program stays one of the parser -/

theorem shaped_of_not_isSurface {g : Graph} {n : NodeId} (hk : (g.kind n).isSurface = false)
    (hrec : isSegment (g.kind n) → ∀ e ∈ g.limbs n, e.role ≠ .receiver) : shaped g n := by
  have hroles : isSegment (g.kind n) → (!(roles g n).contains .receiver) = true := by
    intro h
    rw [Bool.not_eq_true', List.contains_eq_mem, decide_eq_false_iff_not]
    intro hmem
    obtain ⟨e, he, hr⟩ := List.mem_map.1 hmem
    refine hrec h _ (blur_mem_limbs he) ?_
    rw [Edge.blur, hr]
    rfl
  unfold shaped
  split
  all_goals first
    | rfl
    | (next hn => rw [hn] at hk; cases hk)
    | (next hn => exact hroles (by rw [hn]; rfl))

theorem receiver_of_shaped {g : Graph} {n : NodeId} (hn : shaped g n) (hk : isSegment (g.kind n))
    {e : Edge} (he : e ∈ g.limbs n) : e.role ≠ .receiver := by
  obtain ⟨f, hf, rfl⟩ := mem_limbsOf.1 he
  have hroles : (!(roles g n).contains .receiver) = true := by
    unfold shaped at hn
    rcases Bool.or_eq_true_iff.1 hk with h | h <;> rw [of_decide_eq_true h] at hn <;> exact hn
  rw [Bool.not_eq_true', List.contains_eq_mem, decide_eq_false_iff_not] at hroles
  intro hr
  have hrole : f.role = .receiver := by
    rw [Edge.blur] at hr
    cases hf : f.role <;> rw [hf] at hr <;> first | rfl | cases hr
  exact hroles (List.mem_map.2 ⟨f, hf, hrole⟩)

/-- Renamed items alternate as before, if operators stay operators and no others become parts. -/
theorem alternates_map {g g' : Graph} {f : NodeId → NodeId} : ∀ {xs : List NodeId},
    alternates g xs → (∀ x ∈ xs, isPart (g'.kind (f x)) = isPart (g.kind x)) →
      (∀ x ∈ xs, isOperator g x → isOperator g' (f x)) → alternates g' (xs.map f)
  | [], h, _, _ => h
  | [x], h, hpart, _ => by
    rw [alternates] at h
    rwa [List.map_singleton, alternates, hpart x List.mem_cons_self]
  | x :: t :: rest, h, hpart, hop => by
    rw [alternates, Bool.and_eq_true, Bool.and_eq_true] at h
    obtain ⟨⟨hx, ht⟩, hrest⟩ := h
    rw [List.map_cons, List.map_cons, alternates, Bool.and_eq_true, Bool.and_eq_true]
    refine ⟨⟨?_, hop t (by simp) ht⟩, alternates_map hrest (fun y hy => hpart y (by simp [hy]))
      fun y hy => hop y (by simp [hy])⟩
    rwa [hpart x List.mem_cons_self]

theorem headed_map {p : NodeKind → Bool} {g g' : Graph} {f : NodeId → NodeId} :
    ∀ {xs : List NodeId}, headed p g xs → (∀ x ∈ xs, p (g.kind x) → p (g'.kind (f x))) →
      headed p g' (xs.map f)
  | [], h, _ => h
  | x :: rest, h, hp => by
    rw [headed, List.all_eq_true] at h
    rw [List.map_cons, headed, List.all_eq_true]
    intro y hy
    obtain ⟨z, hz, rfl⟩ := List.mem_map.1 hy
    exact hp z (List.mem_cons_of_mem x hz) (h z hz)

/-- A surface form keeps its shape where its edges are redirected to nodes of similar kinds. -/
theorem shaped_of_redirect {g g' : Graph} {n m y : NodeId} (hy : shaped g y)
    (hsurface : (g.kind y).isSurface) (hkind : g'.kind y = g.kind y)
    (hname : g'.name? y = g.name? y) (harms : g'.arms y = (g.arms y).map (Edge.redirect n m))
    (hpart : ∀ x ∈ g.items y,
      isPart (g'.kind (if x = n then m else x)) = isPart (g.kind x))
    (hop : ∀ x ∈ g.items y, isOperator g x → isOperator g' (if x = n then m else x))
    (hseg : ∀ x ∈ g.items y, isSegment (g.kind x) →
      g'.kind (if x = n then m else x) = g.kind x) : shaped g' y := by
  have hroles : roles g' y = roles g y := by
    rw [roles, harms, List.map_map]
    exact List.map_congr_left fun e _ => Edge.role_redirect
  have hitems : g'.items y = (g.items y).map fun x => if x = n then m else x :=
    items_of_redirect harms
  have hholds : holdsItems g' y = holdsItems g y := by
    rw [holdsItems, holdsItems, harms, List.all_map]
    exact congrArg (List.all (g.arms y)) (funext fun e => by simp)
  unfold shaped at hy ⊢
  rw [hkind]
  cases hk : g.kind y with
  | surface k =>
    rw [hk] at hy
    cases k with
    | operatorSeq =>
      obtain ⟨hholds', halt⟩ := Bool.and_eq_true_iff.1 hy
      refine Bool.and_eq_true_iff.2 ⟨hholds.trans hholds', ?_⟩
      rw [hitems]
      exact alternates_map halt hpart hop
    | dotPipe =>
      obtain ⟨hholds', hhead⟩ := Bool.and_eq_true_iff.1 hy
      refine Bool.and_eq_true_iff.2 ⟨hholds.trans hholds', ?_⟩
      rw [hitems]
      refine headed_map hhead fun x hx hcall => ?_
      rw [hseg x hx (by rw [of_decide_eq_true hcall]; rfl)]
      exact hcall
    | dotted =>
      obtain ⟨hholds', hhead⟩ := Bool.and_eq_true_iff.1 hy
      refine Bool.and_eq_true_iff.2 ⟨hholds.trans hholds', ?_⟩
      rw [hitems]
      refine headed_map hhead fun x hx hsegment => ?_
      rw [hseg x hx hsegment]
      exact hsegment
    | opToken | kwArg | forIn =>
      simp only [hroles, hname]
      exact hy
  | _ => exact absurd hsurface (by simp [hk, NodeKind.isSurface])

namespace Surgery

variable {g g' : Graph} {root n m x y : NodeId} {gone busy turned leaves : List NodeId}
  {left : NodeId → List Edge} {made : Multiset Wire} {e : Edge}

theorem name?_eq (hs : Surgery g root n m gone busy turned leaves left g' made) (hx : g.has x) :
    g'.name? x = g.name? x := by rw [name?, name?, hs.growth.payload x hx]

theorem isOperator_of (hs : Surgery g root n m gone busy turned leaves left g' made)
    (hx : g.has x) (hop : isOperator g x) : isOperator g' x := by
  unfold isOperator at hop ⊢
  rw [hs.name?_eq hx]
  obtain ⟨hk, hname⟩ := Bool.and_eq_true_iff.1 hop
  rw [Bool.and_eq_true]
  exact ⟨decide_eq_true ((hs.kind_eq_surface hx _).2 (of_decide_eq_true hk)), hname⟩

/-- A surface form that stays in reach has its edges redirected. -/
theorem shaped_of_surface (hs : Surgery g root n m gone busy turned leaves left g' made)
    (hp : Parsed g root) (hy : g.Below root y) (hgone : y ∉ gone)
    (hsurface : (g.kind y).isSurface) : shaped g' y := by
  have hhas := hp.has_below hy
  have hyn : y ≠ n := by
    rintro rfl
    rcases hs.site.self with ⟨h, -⟩ | ⟨-, h⟩
    · exact hgone h
    · rw [isSurface_of_takesKeywords h] at hsurface
      cases hsurface
  have hbusy : y ∉ busy := by
    intro h
    rw [hs.site.busy y h] at hsurface
    cases hsurface
  have hkind : g'.kind y = g.kind y := by
    cases hk : g.kind y with
    | surface k => exact (hs.kind_eq_surface hhas k).2 hk
    | _ =>
      rw [hk] at hsurface
      cases hsurface
  have hparent : ∀ x ∈ g.items y, y ∈ g.parents x ∧ g.has x := by
    intro x hx
    obtain ⟨r, hr, he⟩ := mem_items.1 hx
    have hlimb := exists_limb he (Role.isStructural_of_isItem hr)
    exact ⟨(mem_parents_limbs hp.balanced).2 hlimb, hp.balanced.has_target he⟩
  have hmpart : isPart (g'.kind m) = false := hs.isPart_new hp hs.new_mem
  refine shaped_of_redirect (hp.shaped y hy) hsurface hkind (hs.name?_eq hhas)
    ((hs.growth.arms y hhas hbusy).trans (hs.left_other y hgone hyn)) (fun x hx => ?_)
    (fun x hx hop => ?_) (fun x hx hseg => ?_)
  · split
    · next h => rw [h, hmpart, hs.site.isPart_self]
    · exact hs.isPart_kind (hparent x hx).2
  · have hxn : x ≠ n := by
      rintro rfl
      have hk := of_decide_eq_true (Bool.and_eq_true_iff.1 hop).1
      have hpart := hs.site.isPart_self
      rw [hk] at hpart
      cases hpart
    rw [if_neg hxn]
    exact hs.isOperator_of (hparent x hx).2 hop
  · have hkeep : g'.kind x = g.kind x := by
      rcases hs.kind_cases (hparent x hx).2 with h | ⟨hturned, -⟩
      · exact h
      · exact absurd (hp.parent_unique (hp.below_limb hy (hparent x hx).1) (hparent x hx).1 hturned)
          hyn
    split
    · next h =>
      subst h
      rcases hs.site.self with ⟨-, hform⟩ | ⟨hleaf, -⟩
      · have hsurf := isSurface_of_isForm hform
        rcases Bool.or_eq_true_iff.1 hseg with h | h <;> rw [of_decide_eq_true h] at hsurf <;>
          cases hsurf
      · rw [hs.same (hs.site.apart x hleaf)]
        exact hkeep
    · exact hkeep

theorem shaped (hs : Surgery g root n m gone busy turned leaves left g' made)
    (hp : Parsed g root) (hy : g'.Below root y) : shaped g' y := by
  rcases hs.below_old hp hy with hnew | ⟨hbelow, hgone⟩
  · have hfiller := hs.growth.filler y hnew
    refine shaped_of_not_isSurface (by simpa using (Bool.and_eq_true_iff.1 hfiller).1) ?_
    intro hseg e he hr
    rcases (hs.mem_limbs hp).1 he with ⟨-, f, hf, -⟩ | hmade
    · have hold := has_of_mem_limbs hf
      rw [hs.not_has_of_newcomer hnew] at hold
      cases hold
    · rw [hs.growth.receiver _ hmade hr] at hseg
      cases hseg
  · have hhas := hp.has_below hbelow
    by_cases hsurface : (g.kind y).isSurface
    · exact hs.shaped_of_surface hp hbelow hgone hsurface
    · refine shaped_of_not_isSurface (by simpa [hs.isSurface_kind hhas] using hsurface) ?_
      intro hseg e he hr
      have hkind := hs.kind_of_isSegment hhas hseg
      rcases (hs.mem_limbs hp).1 he with ⟨-, f, hf, -, rfl⟩ | hmade
      · rw [Edge.role_redirect] at hr
        exact receiver_of_shaped (hp.shaped y hbelow) (hkind ▸ hseg) hf hr
      · rw [hs.growth.receiver _ hmade hr] at hseg
        cases hseg

theorem admits_of_not_isPart {k k' : NodeKind} {r : Role} (h : isPart k' = false) :
    Program.admits k r k' := by
  rw [admits_iff]
  constructor <;> rintro rfl <;> cases h

/-- A part of a form hangs where it hung before. -/
theorem limb_of_isPart (hs : Surgery g root n m gone busy turned leaves left g' made)
    (hp : Parsed g root) (he : e ∈ g'.limbs x) (hpart : isPart (g'.kind e.node)) :
    e ∈ g.limbs x ∧ e.node ∉ gone ∧ g'.kind e.node = g.kind e.node := by
  have hnew : ¬ (e.node ∈ leaves ∨ e.node ∈ newcomers g g') := by
    intro h
    rw [hs.isPart_new hp h] at hpart
    cases hpart
  rcases hs.limb_cases hp he with h | h | ⟨-, hlimb, hgone, -⟩
  · exact absurd (Or.inl h) hnew
  · exact absurd (Or.inr h) hnew
  · refine ⟨hlimb, hgone, ?_⟩
    rcases hs.kind_cases (hp.balanced.has_limb hlimb) with h | ⟨-, ⟨-, h⟩ | ⟨-, h⟩⟩
    · exact h
    · rw [h] at hpart
      cases hpart
    · rw [h] at hpart
      cases hpart

theorem admits (hs : Surgery g root n m gone busy turned leaves left g' made)
    (hp : Parsed g root) (hy : g'.Below root y) (he : e ∈ g'.limbs y) :
    Program.admits (g'.kind y) e.role (g'.kind e.node) := by
  by_cases hpart : isPart (g'.kind e.node) = true
  · obtain ⟨hlimb, -, hkind⟩ := hs.limb_of_isPart hp he hpart
    have hhas : g.has y := has_of_mem_limbs hlimb
    have hbelow : g.Below root y := by
      rcases hs.below_old hp hy with h | ⟨h, -⟩
      · rw [hs.not_has_of_newcomer h] at hhas
        cases hhas
      · exact h
    obtain ⟨htoken, hkeyword⟩ := admits_iff.1 (hp.admits_limb hbelow hlimb)
    rw [hkind, admits_iff, hs.kind_eq_surface hhas, hs.takesKeywords_kind hhas]
    exact ⟨htoken, hkeyword⟩
  · exact admits_of_not_isPart (by simpa using hpart)

/-- A surgery leaves a program of the parser. -/
theorem parsed (hs : Surgery g root n m gone busy turned leaves left g' made)
    (hp : Parsed g root) : Parsed g' root where
  balanced := hs.balanced
  program := by
    rcases hs.kind_cases hp.has_root with h | ⟨h, -⟩
    · rw [h, hp.program]
    · exact absurd h hp.not_mem_parents_root
  top := hs.parents_root hp
  tree _ hx := hs.length_parents_le hp hx
  shaped _ hx := hs.shaped hp hx
  admits _ hy _ he := admits_blur.1 (hs.admits hp hy (blur_mem_limbs he))

/-! ## One task is done -/

theorem not_gone_of_task (hs : Surgery g root n m gone busy turned leaves left g' made)
    {f : SurfaceKind} (hf : task? g x = some f) (hxn : x ≠ n) : x ∉ gone := by
  intro hgone
  have hpart := (hs.site.child x hgone hxn).2
  rcases task?_eq_some.1 hf with ⟨hk, hform⟩ | ⟨-, htakes, -⟩
  · rw [hk, isPart_of_isForm hform] at hpart
    cases hpart
  · rw [isPart_of_not_isSurface (isSurface_of_takesKeywords htakes)] at hpart
    cases hpart

/-- Away from the place of the surgery, a node that stays in reach keeps its task. -/
theorem task?_eq (hs : Surgery g root n m gone busy turned leaves left g' made)
    (hp : Parsed g root) (hx : g.Below root x) (hgone : x ∉ gone) (hxn : x ≠ n) :
    task? g' x = task? g x := by
  have hhas := hp.has_below hx
  have hx' := (hs.below_new hp hx).1 hgone
  refine Option.ext fun f => ?_
  rw [task?_iff hp hx, task?_iff (hs.parsed hp) hx', hs.kind_eq_surface hhas,
    hs.takesKeywords_kind hhas]
  refine or_congr Iff.rfl (and_congr Iff.rfl (and_congr Iff.rfl ⟨?_, ?_⟩))
  · rintro ⟨e, he, hk⟩
    obtain ⟨hlimb, -, hkind⟩ := hs.limb_of_isPart hp he (by rw [hk]; rfl)
    exact ⟨e, hlimb, hkind.symm.trans hk⟩
  · rintro ⟨e, he, hk⟩
    have hen : e.node ≠ n := by
      intro h
      have hpart := hs.site.isPart_self
      rw [← h, hk] at hpart
      cases hpart
    have hegone : e.node ∉ gone := fun h =>
      hxn (hs.site.parent_gone hp h hen ((mem_parents_limbs hp.balanced).2 ⟨e, he, rfl⟩))
    exact ⟨e, hs.limb_of_limb hp hgone he hegone hen,
      (hs.kind_eq_surface (hp.balanced.has_limb he) _).2 hk⟩

/-- At its own place the surgery leaves no task. -/
theorem task?_self (hs : Surgery g root n m gone busy turned leaves left g' made)
    (hp : Parsed g root) (hn : g'.Below root n) (hgone : n ∉ gone) : task? g' n = none := by
  refine Option.eq_none_iff_forall_ne_some.2 fun f hf => ?_
  have hhas := hp.has_below hs.site.below
  have htakes : takesKeywords (g.kind n) := by
    rcases hs.site.self with ⟨h, -⟩ | ⟨-, h⟩
    · exact absurd h hgone
    · exact h
  rcases (task?_iff (hs.parsed hp) hn).1 hf with ⟨hk, -⟩ | ⟨-, -, e, he, hk⟩
  · have hsurface := isSurface_of_takesKeywords htakes
    rw [(hs.kind_eq_surface hhas _).1 hk] at hsurface
    cases hsurface
  · obtain ⟨hlimb, hegone, hkind⟩ := hs.limb_of_isPart hp he (by rw [hk]; rfl)
    exact hegone (hs.site.keywords _ ((mem_parents_limbs hp.balanced).2 ⟨e, hlimb, rfl⟩)
      (hkind.symm.trans hk))

theorem task?_new (hs : Surgery g root n m gone busy turned leaves left g' made)
    (hx : x ∈ newcomers g g') : task? g' x = none := by
  have hfiller := Bool.and_eq_true_iff.1 (hs.growth.filler x hx)
  refine Option.eq_none_iff_forall_ne_some.2 fun f hf => ?_
  rcases task?_eq_some.1 hf with ⟨hk, -⟩ | ⟨-, htakes, -⟩
  · rw [hk] at hfiller
    cases hfiller.1
  · rw [htakes] at hfiller
    cases hfiller.2

theorem lowers (hs : Surgery g root n m gone busy turned leaves left g' made)
    (hp : Parsed g root) : Lowers g root n g' where
  parsed := hs.parsed hp
  tasks x f := by
    constructor
    · rintro ⟨hx, hf⟩
      rcases hs.below_old hp hx with hnew | ⟨hbelow, hgone⟩
      · rw [hs.task?_new hnew] at hf
        cases hf
      · by_cases hxn : x = n
        · subst hxn
          rw [hs.task?_self hp hx hgone] at hf
          cases hf
        · exact ⟨hbelow, (hs.task?_eq hp hbelow hgone hxn).symm.trans hf, hxn⟩
    · rintro ⟨hbelow, hf, hxn⟩
      have hgone := hs.not_gone_of_task hf hxn
      exact ⟨(hs.below_new hp hbelow).1 hgone, (hs.task?_eq hp hbelow hgone hxn).trans hf⟩
  stays x hx hk := by
    have hgone : x ∉ gone := by
      intro h
      rw [hs.site.isSurface_gone h] at hk
      cases hk
    exact ⟨(hs.below_new hp hx).1 hgone, (hs.isSurface_kind (hp.has_below hx)).trans hk⟩

end Surgery

end Lowering

end TypeFlow
