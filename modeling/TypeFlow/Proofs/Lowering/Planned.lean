import TypeFlow.Proofs.Lowering.Chains
import TypeFlow.Proofs.Lowering.Loops
import TypeFlow.Proofs.Lowering.Operators
import TypeFlow.Proofs.Lowering.Plan
/-!
# The patches of lowering fit

Each rule of lowering drafts a patch that is a plan for the program it is read from. The edits of
a patch are known by the time it is applied, so they are listed (`handEdits`, `receiveEdits`,
`entryEdits`, `loopEdits`) and looked over one by one. How an operator sequence folds depends on
its tokens; what is known of its patch is an invariant of the folding (`Folded`).
-/

namespace TypeFlow

/-! ## Running a draft -/

namespace Draft

variable {p : Patch}

theorem run_bind {α β : Type} (d : Draft α) (f : α → Draft β) :
    (d >>= f).run p = (f (d.run p).1).run (d.run p).2 := rfl

theorem run_node (k : NodeKind) (pl : Payload) : (Draft.node k pl).run p =
    (.new p.nodes.length, { p with nodes := p.nodes ++ [(k, pl)] }) := rfl

theorem run_edit (e : Edit) : (Draft.edit e).run p = ((), { p with edits := p.edits ++ [e] }) :=
  rfl

theorem run_pure {α : Type} (a : α) : (pure a : Draft α).run p = (a, p) := rfl

/-- What is so of the answer of a draft and of the patch that it has written then. -/
def Writes {α : Type} (d : Draft α) (p : Patch) (Q : α → Patch → Prop) : Prop :=
  Q (d.run p).1 (d.run p).2

end Draft

namespace Lowering

open TypeFlow.Graph Program

variable {g : Graph} {root n x : NodeId} {turned xs : List NodeId} {p p' : Patch} {r : Role}
  {a b : Handle} {i : Nat}

/-! ## Items of composed programs -/

theorem takes_of_limb (hc : Composed g root) (hn : g.Below root n) {e : Edge} (he : e ∈ g.limbs n)
    (hpart : isPart (g.kind e.node) = false) :
    takes (g.kind n) e.role (stead (g.kind e.node)) := by
  obtain ⟨f, hf, rfl⟩ := mem_limbsOf.1 he
  rw [Edge.blur, takes_blur]
  exact hc.takes n hn f hf hpart

theorem takes_of_item (hc : Composed g root) (hn : g.Below root n) (hx : x ∈ g.items n)
    (hpart : isPart (g.kind x) = false) : takes (g.kind n) (.item 0) (stead (g.kind x)) := by
  obtain ⟨r, hr, he⟩ := mem_items.1 hx
  have htakes := hc.takes n hn _ (mem_arms.2 ⟨he, Role.isStructural_of_isItem hr⟩) hpart
  rwa [← takes_blur, Role.blur_of_isItem hr] at htakes

/-- What a sequence or a chain holds stands for values. -/
theorem isValue_of_item (hc : Composed g root) (hn : g.Below root n)
    (hk : g.kind n = .surface .operatorSeq ∨ g.kind n = .surface .dotPipe ∨
      g.kind n = .surface .dotted) (hx : x ∈ g.items n) (hpart : isPart (g.kind x) = false) :
    isValue (stead (g.kind x)) := by
  have htakes := takes_of_item hc hn hx hpart
  rcases hk with hk | hk | hk <;> rwa [hk] at htakes

/-- A list is shorter than the program, as it does not hold its own node. -/
theorem length_items_lt (hp : Parsed g root) (hn : g.Below root n) :
    (g.items n).length < g.size := by
  have hself : n ∉ g.items n := by
    intro h
    obtain ⟨r, hr, he⟩ := mem_items.1 h
    refine not_mem_parents_self hp hn ((mem_parents_limbs hp.balanced).2 ?_)
    exact exists_limb he (Role.isStructural_of_isItem hr)
  have hnodup : (n :: g.items n).Nodup := List.nodup_cons.2 ⟨hself, nodup_items hp hn⟩
  refine length_le_size hnodup fun x hx => ?_
  rcases List.mem_cons.1 hx with rfl | hx
  · exact hp.has_below hn
  · exact hp.has_below (hn.of_mem_items hx)

/-! ## Nodes as a patch names them -/

theorem reach_new (hi : i < p.nodes.length) : Reach g root p ((Handle.new i).at g) :=
  Or.inr ⟨has_new, by simpa [has_addAll, Handle.at] using hi⟩

theorem reach_of_getElem? {m : NodeKind × Payload} (hi : p.nodes[i]? = some m) :
    Reach g root p ((Handle.new i).at g) := reach_new (List.getElem?_eq_some_iff.1 hi).1

theorem finalKind_at_new {m : NodeKind × Payload} (hi : p.nodes[i]? = some m) :
    finalKind g [] p ((Handle.new i).at g) = m.1 := by
  obtain ⟨hlt, rfl⟩ := List.getElem?_eq_some_iff.1 hi
  exact finalKind_new hlt nofun

/-- A new node holds what suits its kind. -/
theorem fitting_setChild {m : NodeKind × Payload} (hi : p.nodes[i]? = some m)
    (hb : Reach g root p (b.at g)) (hr : r.isItem = false ∧ r ≠ .ref ∧ r ≠ .locals)
    (hsuits : isPart (finalKind g [] p (b.at g)) = false →
      takes m.1 r (stead (finalKind g [] p (b.at g)))) :
    Fitting (Reach g root p) (finalKind g [] p) ((Edit.setChild (.new i) r b).at g) := by
  refine ⟨reach_of_getElem? hi, hb, hr.1, hr.2.1, hr.2.2, fun hpart => ?_⟩
  rw [finalKind_at_new hi]
  exact hsuits hpart

theorem fitting_pushItem {m : NodeKind × Payload} (hi : p.nodes[i]? = some m)
    (hb : Reach g root p (b.at g)) (hsuits : isPart (finalKind g [] p (b.at g)) = false →
      takes m.1 (.item 0) (stead (finalKind g [] p (b.at g)))) :
    Fitting (Reach g root p) (finalKind g [] p) ((Edit.pushItem (.new i) b).at g) := by
  refine ⟨reach_of_getElem? hi, hb, fun hpart => ?_⟩
  rw [finalKind_at_new hi]
  exact hsuits hpart

theorem finalKind_old (hp : Parsed g root) (hx : g.Below root x) :
    finalKind g [] p ((Handle.old x).at g) = g.kind x :=
  finalKind_of_not_mem (hp.has_below hx) List.not_mem_nil

/-- A surface form stays what it is. -/
theorem finalKind_surface {k : SurfaceKind} (hn : g.has n) (hk : g.kind n = .surface k) :
    finalKind g turned p n = .surface k := by
  have hturns : Turns (g.kind n) (finalKind g turned p n) := turns_finalKind hn
  rcases hturns with h | ⟨e, he, -⟩
  · rw [h, hk]
  · rw [hk] at he
    cases he

/-- What stands for a value does so when it is turned. -/
theorem isValue_finalKind (hx : g.has x) (h : isValue (stead (g.kind x))) :
    isValue (stead (finalKind g turned p x)) := by
  have hturns : Turns (g.kind x) (finalKind g turned p x) := turns_finalKind hx
  rcases hturns with h' | ⟨e, he, h'⟩
  · rwa [h']
  · rw [h']
    rcases kinds_of_afterDot? he with ⟨-, rfl⟩ | ⟨-, rfl⟩ <;> rfl

theorem places_le : places g x ≤ 2 ^ 32 := by
  unfold places
  split <;> omega

/-- A patch without new items needs no room. -/
theorem roomy_of_no_push {es : List Edit} (h : ∀ e ∈ es, ∀ s d, e ≠ .pushItem s d) :
    Mutation.Roomy (places g) (es.map (Edit.at g)) := by
  refine Mutation.roomy_of_countP fun s => ?_
  have hzero : (es.map (Edit.at g)).countP (Mutation.pushesTo s) = 0 := by
    refine List.countP_eq_zero.2 fun m hm => ?_
    obtain ⟨e, he, rfl⟩ := List.mem_map.1 hm
    cases e with
    | pushItem s d => exact absurd rfl (h _ he s d)
    | _ => exact Bool.false_ne_true
  rw [hzero]
  exact places_le

/-! ## A form gives its place away -/

/-- The patch of a draft whose answer takes the place of a node. -/
theorem patch_retire {α : Type} (d : Draft α) (f : α → Handle) : (Draft.patch do
      let c ← d
      Draft.retire n (f c)) = ⟨(d.run .empty).2.nodes, (d.run .empty).2.edits ++
        [Edit.replace n (f (d.run .empty).1), .detach n]⟩ :=
  congrArg (Patch.mk _) (List.append_assoc _ [_] [_])

/-- A patch without new nodes needs no names and no parts. -/
theorem plan_of_edits {es : List Edit}
    (hfitting : ∀ e ∈ es, Fitting (Reach g root ⟨[], es⟩) (finalKind g turned ⟨[], es⟩) (e.at g))
    (hroomy : Mutation.Roomy (places g) (es.map (Edit.at g)))
    (hturns : ∀ x ∈ turned, g.Below root x ∧ ∃ e, afterDot? (g.kind x) = some e ∧
      .setKind x (.expr e) ∈ es ∧ ∃ b, .setChild x .receiver b ∈ es) :
    Plan g root turned ⟨[], es⟩ where
  fitting := hfitting
  roomy := hroomy
  named := List.forall_mem_nil _
  calls := List.forall_mem_nil _
  complete _ hi := absurd hi (Nat.not_lt_zero _)
  turns := hturns

/-- What is put in the place of a form must stand for what the form does. -/
theorem Plan.retire (hplan : Plan g root turned p) (hp : Parsed g root) (hn : g.Below root n)
    {k : SurfaceKind} (hk : g.kind n = .surface k) (hform : isForm (.surface k))
    (hb : Reach g root p (b.at g))
    (hstead : ∀ m r, takes m r (stead (.surface k)) →
      takes m r (stead (finalKind g turned p (b.at g)))) :
    Plan g root turned ⟨p.nodes, p.edits ++ [Edit.replace n b, .detach n]⟩ where
  fitting e he := by
    have hself : ∀ q : Patch, finalKind g turned q n = .surface k :=
      fun q => finalKind_surface (hp.has_below hn) hk
    rcases List.mem_append.1 he with he | he
    · exact hplan.fitting e he
    · rcases List.mem_pair.1 he with rfl | rfl
      · refine ⟨Or.inl hn, hb, ?_, fun m r h => hstead m r ?_⟩
        · rw [Handle.at, hself]
          exact isPart_of_isForm hform
        · rwa [Handle.at, hself] at h
      · refine ⟨Or.inl hn, ?_⟩
        rw [Handle.at, hself]
        rfl
  roomy := by
    rw [List.map_append]
    exact Mutation.roomy_append.2 ⟨hplan.roomy, trivial, trivial, trivial⟩
  named := hplan.named
  calls := hplan.calls
  complete i hi r hr := by
    obtain ⟨b, hb⟩ := hplan.complete i hi r hr
    exact ⟨b, List.mem_append_left _ hb⟩
  turns x hx := by
    obtain ⟨hbelow, e, he, hset, b, hb⟩ := hplan.turns x hx
    exact ⟨hbelow, e, he, List.mem_append_left _ hset, b, List.mem_append_left _ hb⟩

/-! ## Operator sequences -/

/-- What may hang below a binary node: an operand or another node of the patch. -/
def IsOperand (xs : List NodeId) (p : Patch) : Handle → Prop
  | .old x => x ∈ xs
  | .new i => i < p.nodes.length

/-- A patch that makes nothing but binary nodes, each with both of its operands. -/
structure Folded (xs : List NodeId) (p : Patch) : Prop where
  nodes : ∀ a ∈ p.nodes, ∃ op, a.1 = .expr (.binary op)
  edits : ∀ e ∈ p.edits, ∃ i r b, e = .setChild (.new i) r b ∧ i < p.nodes.length ∧
    (r = .left ∨ r = .right) ∧ IsOperand xs p b
  full : ∀ i < p.nodes.length, ∀ r, r = .left ∨ r = .right →
    ∃ b, .setChild (.new i) r b ∈ p.edits

theorem folded_empty : Folded xs .empty :=
  ⟨List.forall_mem_nil _, List.forall_mem_nil _, fun _ hi => absurd hi (Nat.not_lt_zero _)⟩

theorem IsOperand.mono (ha : IsOperand xs p a) (hle : p.nodes.length ≤ p'.nodes.length) :
    IsOperand xs p' a := by
  cases a with
  | old x => exact ha
  | new i => exact Nat.lt_of_lt_of_le ha hle

theorem run_combine (op : BinaryOp) : (combine op a b).run p = (.new p.nodes.length,
    ⟨p.nodes ++ [(NodeKind.expr (.binary op), Payload.none)], p.edits ++
      [Edit.setChild (.new p.nodes.length) .left a,
        .setChild (.new p.nodes.length) .right b]⟩) := by
  simp only [combine, Draft.run_bind, Draft.run_node, Draft.setChild, Draft.run_edit,
    Draft.run_pure]
  simp

theorem writes_combine (op : BinaryOp) (hf : Folded xs p) (ha : IsOperand xs p a)
    (hb : IsOperand xs p b) : (combine op a b).Writes p fun c p' =>
      Folded xs p' ∧ IsOperand xs p' c ∧ p.nodes.length ≤ p'.nodes.length := by
  rw [Draft.Writes, run_combine]
  refine ⟨⟨fun m hm => ?_, fun e he => ?_, fun i hi r hr => ?_⟩, by simp [IsOperand], by simp⟩
  · rcases List.mem_append.1 hm with hm | hm
    · exact hf.nodes m hm
    · obtain rfl := List.mem_singleton.1 hm
      exact ⟨op, rfl⟩
  · rcases List.mem_append.1 he with he | he
    · obtain ⟨i, r, b, rfl, hi, hr, hb⟩ := hf.edits e he
      exact ⟨i, r, b, rfl, by simp; omega, hr, hb.mono (by simp)⟩
    · rcases List.mem_pair.1 he with rfl | rfl
      · exact ⟨_, _, _, rfl, by simp, Or.inl rfl, ha.mono (by simp)⟩
      · exact ⟨_, _, _, rfl, by simp, Or.inr rfl, hb.mono (by simp)⟩
  · rw [List.length_append, List.length_singleton] at hi
    by_cases hlt : i < p.nodes.length
    · obtain ⟨b, hb⟩ := hf.full i hlt r hr
      exact ⟨b, List.mem_append_left _ hb⟩
    · obtain rfl : i = p.nodes.length := by omega
      rcases hr with rfl | rfl
      · exact ⟨a, by simp⟩
      · exact ⟨b, by simp⟩

theorem writes_close (strength : Nat) : ∀ {pending : List (Handle × BinaryOp)} {right : Handle}
    {p : Patch}, Folded xs p → IsOperand xs p right → (∀ q ∈ pending, IsOperand xs p q.1) →
    (close strength pending right).Writes p fun answer p' => Folded xs p' ∧
      IsOperand xs p' answer.2 ∧ (∀ q ∈ answer.1, IsOperand xs p' q.1) ∧
        p.nodes.length ≤ p'.nodes.length
  | [], right, p, hf, hright, _ => ⟨hf, hright, nofun, Nat.le_refl _⟩
  | (left, op) :: pending, right, p, hf, hright, hpending => by
    rw [close]
    split
    · obtain ⟨hleft, hpending⟩ := List.forall_mem_cons.1 hpending
      obtain ⟨hf', hnew, hle⟩ := writes_combine op hf hleft hright
      obtain ⟨hf'', hanswer, hrest, hle'⟩ :=
        writes_close strength hf' hnew fun q hq => (hpending q hq).mono hle
      exact ⟨hf'', hanswer, hrest, hle.trans hle'⟩
    · exact ⟨hf, hright, hpending, Nat.le_refl _⟩

theorem writes_climb : ∀ {rest : List (BinaryOp × NodeId)} {pending : List (Handle × BinaryOp)}
    {last : Handle} {p : Patch}, Folded xs p → IsOperand xs p last →
    (∀ q ∈ pending, IsOperand xs p q.1) → (∀ q ∈ rest, q.2 ∈ xs) →
    (climb pending last rest).Writes p fun c p' => Folded xs p' ∧ IsOperand xs p' c
  | [], pending, last, p, hf, hlast, hpending, _ => by
    obtain ⟨hf', hanswer, -, -⟩ := writes_close 0 hf hlast hpending
    rw [climb]
    exact ⟨hf', hanswer⟩
  | (op, x) :: rest, pending, last, p, hf, hlast, hpending, hrest => by
    obtain ⟨hx, hrest⟩ := List.forall_mem_cons.1 hrest
    obtain ⟨hf', hanswer, hpending', -⟩ := writes_close op.precedence hf hlast hpending
    rw [climb]
    exact writes_climb hf' hx (List.forall_mem_cons.2 ⟨hanswer, hpending'⟩) hrest

/-- A fold of values is a plan. -/
theorem Folded.plan (hf : Folded xs p)
    (hxs : ∀ x ∈ xs, g.Below root x ∧ g.has x ∧ isValue (stead (g.kind x))) :
    Plan g root [] p ∧ ∀ b, IsOperand xs p b →
      Reach g root p (b.at g) ∧ isValue (stead (finalKind g [] p (b.at g))) := by
  have hbinary : ∀ i < p.nodes.length, ∃ op m, p.nodes[i]? = some m ∧ m.1 = .expr (.binary op) := by
    intro i hi
    obtain ⟨op, hop⟩ := hf.nodes _ (List.getElem_mem hi)
    exact ⟨op, _, List.getElem?_eq_getElem hi, hop⟩
  have hoperand : ∀ b, IsOperand xs p b →
      Reach g root p (b.at g) ∧ isValue (stead (finalKind g [] p (b.at g))) := by
    intro b hb
    cases b with
    | old x =>
      obtain ⟨hbelow, hhas, hvalue⟩ := hxs x hb
      exact ⟨Or.inl hbelow, isValue_finalKind hhas hvalue⟩
    | new i =>
      obtain ⟨op, m, hm, hop⟩ := hbinary i hb
      exact ⟨reach_new hb, by rw [finalKind_at_new hm, hop]; rfl⟩
  refine ⟨⟨fun e he => ?_, roomy_of_no_push fun e he s d => ?_, fun m hm hname => ?_,
    fun m hm => ?_, fun i hi r hr => ?_, nofun⟩, hoperand⟩
  · obtain ⟨i, r, b, rfl, hi, hr, hb⟩ := hf.edits e he
    obtain ⟨hreach, hvalue⟩ := hoperand b hb
    obtain ⟨op, m, hm, hop⟩ := hbinary i hi
    refine fitting_setChild hm hreach ?_ fun _ => ?_
    · rcases hr with rfl | rfl <;> decide
    · rw [hop]
      rcases hr with rfl | rfl <;> exact hvalue
  · obtain ⟨i, r, b, rfl, -⟩ := hf.edits e he
    nofun
  · obtain ⟨op, hop⟩ := hf.nodes m hm
    rw [hop] at hname
    cases hname
  · obtain ⟨op, hop⟩ := hf.nodes m hm
    rw [hop]
    nofun
  · obtain ⟨op, hop⟩ := hf.nodes _ (List.getElem_mem hi)
    rw [hop] at hr
    exact hf.full i hi r (List.mem_pair.1 hr)

/-- A rule drafts a plan at a node. -/
def Plans (rule : GraphRule) (g : Graph) (root n : NodeId) : Prop :=
  ∃ turned p, rule.effect g n = .ok (some p) ∧ Plan g root turned p

theorem plans_foldOperators (hp : Parsed g root) (hc : Composed g root) (hn : g.Below root n)
    (hk : g.kind n = .surface .operatorSeq) : Plans foldOperators g root n := by
  obtain ⟨-, first, rest, heffect, hoperands⟩ := effect_foldOperators hp hn hk
  have hxs : ∀ x ∈ first :: rest.map Prod.snd,
      g.Below root x ∧ g.has x ∧ isValue (stead (g.kind x)) := by
    intro x hx
    rw [hoperands] at hx
    obtain ⟨hx, hpart⟩ := List.mem_filter.1 hx
    have hbelow := hn.of_mem_items hx
    exact ⟨hbelow, hp.has_below hbelow,
      isValue_of_item hc hn (Or.inl hk) hx (by simpa using hpart)⟩
  have hfirst : IsOperand (first :: rest.map Prod.snd) .empty (.old first) := List.mem_cons_self
  have hwrites : (climb [] first rest).Writes .empty fun c p =>
      Folded (first :: rest.map Prod.snd) p ∧ IsOperand (first :: rest.map Prod.snd) p c :=
    writes_climb folded_empty hfirst nofun
      fun q hq => List.mem_cons_of_mem first (List.mem_map_of_mem hq)
  obtain ⟨hplan, hoperand⟩ := hwrites.1.plan hxs
  obtain ⟨hreach, hvalue⟩ := hoperand _ hwrites.2
  refine ⟨[], _, heffect, ?_⟩
  rw [patch_retire (climb [] first rest) fun top => top]
  exact hplan.retire hp hn hk rfl hreach fun m r h => takes_of_value h rfl hvalue

/-! ## Pipes -/

/-- The edits that append items to a list. -/
def pushEdits (c : NodeId) (xs : List NodeId) : List Edit :=
  xs.map fun x => .pushItem (.old c) (.old x)

theorem map_pushEdits (c : NodeId) (xs : List NodeId) :
    (pushEdits c xs).map (Edit.at g) = xs.map (Mutation.pushItem c ·) := by
  rw [pushEdits, List.map_map]
  rfl

theorem run_pushAll (c : NodeId) : ∀ (xs : List NodeId) (p : Patch),
    (xs.forM fun x => Draft.pushItem c x).run p = ((), ⟨p.nodes, p.edits ++ pushEdits c xs⟩)
  | [], p => by
    rw [pushEdits, List.map_nil, List.append_nil]
    rfl
  | x :: xs, p => by
    refine (run_pushAll c xs (p.extend (.pushItem c x))).trans ?_
    rw [Patch.extend, List.append_assoc]
    rfl

/-- The edits that hand a value through calls. -/
def handEdits (g : Graph) : NodeId → List NodeId → List Edit
  | _, [] => []
  | value, c :: cs =>
    (.clearItems c :: pushEdits c (value :: g.items c)) ++ handEdits g c cs

theorem run_handThrough : ∀ (calls : List NodeId) (value : NodeId) (p : Patch),
    ∃ last ∈ value :: calls, (handThrough g value calls).run p =
      (last, ⟨p.nodes, p.edits ++ handEdits g value calls⟩)
  | [], value, p => ⟨value, List.mem_cons_self, by rw [handEdits, List.append_nil]; rfl⟩
  | c :: cs, value, p => by
    obtain ⟨last, hlast, hrest⟩ := run_handThrough cs c
      ⟨p.nodes, p.edits ++ .clearItems c :: pushEdits c (value :: g.items c)⟩
    refine ⟨last, List.mem_cons_of_mem value hlast, ?_⟩
    have hrun : (handThrough g value (c :: cs)).run p = (handThrough g c cs).run
        (((value :: g.items c).forM fun x => Draft.pushItem c x).run
          (p.extend (.clearItems c))).2 := rfl
    rw [hrun, run_pushAll, handEdits]
    simpa [Patch.extend] using hrest

/-- Each call gets what is handed to it, and its own arguments back. -/
theorem mem_handEdits {e : Edit} : ∀ {calls : List NodeId} {value : NodeId},
    e ∈ handEdits g value calls → ∃ c ∈ calls,
      e = .clearItems c ∨ ∃ x, (x ∈ value :: calls ∨ x ∈ g.items c) ∧ e = .pushItem c x
  | c :: cs, value, he => by
    rw [handEdits] at he
    rcases List.mem_append.1 he with he | he
    · refine ⟨c, List.mem_cons_self, ?_⟩
      rcases List.mem_cons.1 he with rfl | he
      · exact Or.inl rfl
      · obtain ⟨x, hx, rfl⟩ := List.mem_map.1 he
        refine Or.inr ⟨x, ?_, rfl⟩
        rcases List.mem_cons.1 hx with rfl | hx
        · exact Or.inl List.mem_cons_self
        · exact Or.inr hx
    · obtain ⟨d, hd, hedit⟩ := mem_handEdits he
      refine ⟨d, List.mem_cons_of_mem c hd, hedit.imp id ?_⟩
      rintro ⟨x, hx, rfl⟩
      exact ⟨x, hx.imp (List.mem_cons_of_mem value) id, rfl⟩

theorem roomy_handEdits : ∀ {calls : List NodeId} {value : NodeId} {f : NodeId → Nat},
    (∀ c ∈ calls, (g.items c).length < 2 ^ 32) →
      Mutation.Roomy f ((handEdits g value calls).map (Edit.at g))
  | [], _, _, _ => trivial
  | c :: cs, value, f, h => by
    obtain ⟨hc, hcs⟩ := List.forall_mem_cons.1 h
    rw [handEdits, List.map_append]
    refine Mutation.roomy_append.2 ⟨?_, roomy_handEdits hcs⟩
    rw [List.map_cons, map_pushEdits]
    exact Mutation.roomy_refill c (by rw [List.length_cons]; omega) f

theorem plans_lowerDotPipe (hp : Parsed g root) (hc : Composed g root) (hsmall : g.size ≤ 2 ^ 32)
    (hn : g.Below root n) (hk : g.kind n = .surface .dotPipe) : Plans lowerDotPipe g root n := by
  obtain ⟨-, head, calls, hitems, hcall, heffect⟩ := effect_lowerDotPipe hp hn hk
  obtain ⟨last, hlast, hrun⟩ := run_handThrough (g := g) calls head .empty
  have hbelow : ∀ x ∈ head :: calls, g.Below root x := fun x hx => hn.of_mem_items (hitems ▸ hx)
  have hvalue : ∀ x ∈ head :: calls, isValue (stead (g.kind x)) := by
    intro x hx
    rw [← hitems] at hx
    exact isValue_of_item hc hn (Or.inr (Or.inl hk)) hx (isPart_of_item hp hn (Or.inl hk) hx)
  have hplan : Plan g root [] ⟨[], handEdits g head calls⟩ := by
    refine plan_of_edits (fun e he => ?_) (roomy_handEdits fun c hc => ?_)
      (List.forall_mem_nil _)
    · obtain ⟨c, hmem, rfl | ⟨x, hx, rfl⟩⟩ := mem_handEdits he
      · exact Or.inl (hbelow c (List.mem_cons_of_mem head hmem))
      · have hcbelow := hbelow c (List.mem_cons_of_mem head hmem)
        have hxbelow : g.Below root x := hx.elim (hbelow x) fun h => hcbelow.of_mem_items h
        refine ⟨Or.inl hcbelow, Or.inl hxbelow, fun hpart => ?_⟩
        rw [finalKind_old hp hxbelow] at hpart ⊢
        rw [finalKind_old hp hcbelow]
        rcases hx with hx | hx
        · rw [hcall c hmem]
          exact hvalue x hx
        · exact takes_of_item hc hcbelow hx hpart
    · have hlt := length_items_lt hp (hbelow c (List.mem_cons_of_mem head hc))
      omega
  refine ⟨[], _, heffect, ?_⟩
  rw [patch_retire (handThrough g head calls) fun last => (last : Handle), hrun]
  refine hplan.retire hp hn hk rfl (Or.inl (hbelow last hlast)) fun m r h => ?_
  rw [finalKind_old hp (hbelow last hlast)]
  exact takes_of_value h rfl (hvalue last hlast)

/-! ## Dotted chains -/

/-- The edits that let segments receive what stands before them. -/
def receiveEdits : NodeId → List (NodeId × ExprKind) → List Edit
  | _, [] => []
  | base, (s, k) :: rest =>
    .setKind s (.expr k) :: .setChild s .receiver base :: receiveEdits s rest

theorem run_receiveThrough : ∀ (read : List (NodeId × ExprKind)) (base : NodeId) (p : Patch),
    ∃ last ∈ base :: read.map Prod.fst, (receiveThrough base read).run p =
      (last, ⟨p.nodes, p.edits ++ receiveEdits base read⟩)
  | [], base, p => ⟨base, List.mem_cons_self, by rw [receiveEdits, List.append_nil]; rfl⟩
  | (s, k) :: rest, base, p => by
    obtain ⟨last, hlast, hrest⟩ := run_receiveThrough rest s
      ⟨p.nodes, p.edits ++ [Edit.setKind s (.expr k)] ++ [Edit.setChild s .receiver base]⟩
    refine ⟨last, List.mem_cons_of_mem base hlast, ?_⟩
    simp only [receiveThrough, Draft.run_bind, Draft.setKind, Draft.setChild, Draft.run_edit, hrest]
    simp [receiveEdits]

/-- Each segment is turned and receives something from the chain. -/
theorem mem_receiveEdits {e : Edit} : ∀ {read : List (NodeId × ExprKind)} {base : NodeId},
    e ∈ receiveEdits base read → ∃ q ∈ read, e = .setKind q.1 (.expr q.2) ∨
      ∃ x ∈ base :: read.map Prod.fst, e = .setChild q.1 .receiver x
  | (s, k) :: rest, base, he => by
    rw [receiveEdits] at he
    rcases List.mem_cons.1 he with rfl | he
    · exact ⟨(s, k), List.mem_cons_self, Or.inl rfl⟩
    · rcases List.mem_cons.1 he with rfl | he
      · exact ⟨(s, k), List.mem_cons_self, Or.inr ⟨base, List.mem_cons_self, rfl⟩⟩
      · obtain ⟨q, hq, hedit⟩ := mem_receiveEdits he
        refine ⟨q, List.mem_cons_of_mem _ hq, hedit.imp id ?_⟩
        rintro ⟨x, hx, rfl⟩
        exact ⟨x, List.mem_cons_of_mem base hx, rfl⟩

theorem receiveEdits_of_mem {q : NodeId × ExprKind} :
    ∀ {read : List (NodeId × ExprKind)} (base : NodeId), q ∈ read →
      .setKind q.1 (.expr q.2) ∈ receiveEdits base read ∧
        ∃ b, .setChild q.1 .receiver b ∈ receiveEdits base read
  | (s, k) :: rest, base, hq => by
    rw [receiveEdits]
    rcases List.mem_cons.1 hq with rfl | hq
    · exact ⟨by simp, base, by simp⟩
    · obtain ⟨hset, b, hb⟩ := receiveEdits_of_mem s hq
      exact ⟨by simp [hset], b, by simp [hb]⟩

theorem plans_lowerDotted (hp : Parsed g root) (hc : Composed g root) (hn : g.Below root n)
    (hk : g.kind n = .surface .dotted) : Plans lowerDotted g root n := by
  obtain ⟨-, base, segments, read, hitems, -, rfl, hkinds, heffect⟩ := effect_lowerDotted hp hn hk
  obtain ⟨last, hlast, hrun⟩ := run_receiveThrough read base .empty
  have hbelow : ∀ x ∈ base :: read.map Prod.fst, g.Below root x :=
    fun x hx => hn.of_mem_items (hitems ▸ hx)
  have hvalue : ∀ x ∈ base :: read.map Prod.fst, ∀ p,
      isValue (stead (finalKind g (read.map Prod.fst) p x)) := by
    intro x hx p
    refine isValue_finalKind (hp.has_below (hbelow x hx)) ?_
    rw [← hitems] at hx
    exact isValue_of_item hc hn (Or.inr (Or.inr hk)) hx (isPart_of_item hp hn (Or.inr hk) hx)
  have hturned : ∀ q ∈ read, q.1 ∈ read.map Prod.fst := fun q hq => List.mem_map_of_mem hq
  have hkind : ∀ q ∈ read, ∀ p, finalKind g (read.map Prod.fst) p q.1 = .expr q.2 := by
    intro q hq p
    rw [finalKind, if_pos (hturned q hq), hkinds q hq]
    rfl
  have hplan : Plan g root (read.map Prod.fst) ⟨[], receiveEdits base read⟩ := by
    refine plan_of_edits (fun e he => ?_) (roomy_of_no_push fun e he s d => ?_) fun x hx => ?_
    · obtain ⟨q, hq, hedit⟩ := mem_receiveEdits he
      have hqbelow := hbelow q.1 (List.mem_cons_of_mem base (hturned q hq))
      rcases hedit with rfl | ⟨x, hx, rfl⟩
      · exact ⟨Or.inl hqbelow, hkind q hq _⟩
      · refine ⟨Or.inl hqbelow, Or.inl (hbelow x hx), rfl, by decide, by decide, fun _ => ?_⟩
        rw [Handle.at, Handle.at, hkind q hq]
        obtain ⟨-, h⟩ | ⟨-, h⟩ := kinds_of_afterDot? (hkinds q hq) <;> rw [h] <;>
          exact hvalue x hx _
    · obtain ⟨q, -, rfl | ⟨x, -, rfl⟩⟩ := mem_receiveEdits he <;> rintro ⟨⟩
    · obtain ⟨q, hq, rfl⟩ := List.mem_map.1 hx
      obtain ⟨hset, hreceive⟩ := receiveEdits_of_mem base hq
      exact ⟨hbelow _ (List.mem_cons_of_mem base hx), q.2, hkinds q hq, hset, hreceive⟩
  refine ⟨read.map Prod.fst, _, heffect, ?_⟩
  rw [patch_retire (receiveThrough base read) fun last => (last : Handle), hrun]
  exact hplan.retire hp hn hk rfl (Or.inl (hbelow last hlast)) fun m r h =>
    takes_of_value h rfl (hvalue last hlast _)

/-! ## Keyword arguments -/

/-- The nodes of the entry for a keyword argument. -/
def entryNodes (k : Keyword) : List (NodeKind × Payload) :=
  [(.expr .mapEntry, .none), (.expr .strLit, .str k.name)]

/-- The edits for the entry whose nodes come at a number. -/
def entryEdits (map : Handle) (i : Nat) (k : Keyword) : List Edit :=
  [.setChild (.new i) .key (.new (i + 1)), .setChild (.new i) .value k.value,
    .pushItem map (.new i), .detach k.node]

/-- The edits for the entries whose nodes come from a number on. -/
def entriesEdits (map : Handle) : Nat → List Keyword → List Edit
  | _, [] => []
  | i, k :: ks => entryEdits map i k ++ entriesEdits map (i + 2) ks

theorem run_addEntries (map : Handle) : ∀ (ks : List Keyword) (p : Patch),
    (ks.forM (addEntry map)).run p = ((), ⟨p.nodes ++ ks.flatMap entryNodes,
      p.edits ++ entriesEdits map p.nodes.length ks⟩)
  | [], p => by
    rw [List.flatMap_nil, List.append_nil, entriesEdits, List.append_nil]
    rfl
  | k :: ks, p => by
    have hrun : ((k :: ks).forM (addEntry map)).run p =
        (ks.forM (addEntry map)).run ((addEntry map k).run p).2 := rfl
    have hentry : ((addEntry map k).run p).2 =
        ⟨p.nodes ++ entryNodes k, p.edits ++ entryEdits map p.nodes.length k⟩ := by
      simp only [addEntry, Draft.run_bind, Draft.run_node, Draft.setChild, Draft.pushItem,
        Draft.detach, Draft.run_edit]
      simp [entryNodes, entryEdits]
    rw [hrun, hentry, run_addEntries map ks]
    simp [entriesEdits, entryNodes]

/-- Each edit belongs to the entry of one keyword argument, whose nodes are in place. -/
theorem mem_entriesEdits {map : Handle} {e : Edit} : ∀ {ks : List Keyword}
    (pre : List (NodeKind × Payload)), e ∈ entriesEdits map pre.length ks → ∃ k ∈ ks, ∃ j,
      e ∈ entryEdits map j k ∧
      (pre ++ ks.flatMap entryNodes)[j]? = some (.expr .mapEntry, .none) ∧
      (pre ++ ks.flatMap entryNodes)[j + 1]? = some (.expr .strLit, .str k.name)
  | k :: ks, pre, he => by
    rw [entriesEdits] at he
    rcases List.mem_append.1 he with he | he
    · exact ⟨k, List.mem_cons_self, pre.length, he, by simp [entryNodes], by simp [entryNodes]⟩
    · have hlength : pre.length + 2 = (pre ++ entryNodes k).length := by simp [entryNodes]
      rw [hlength] at he
      obtain ⟨k', hk', j, he', hentry, hkey⟩ := mem_entriesEdits _ he
      refine ⟨k', List.mem_cons_of_mem k hk', j, he', ?_, ?_⟩
      · rwa [List.flatMap_cons, ← List.append_assoc]
      · rwa [List.flatMap_cons, ← List.append_assoc]

theorem countP_entriesEdits {map : Handle} {s : NodeId} : ∀ {ks : List Keyword} {i : Nat},
    ((entriesEdits map i ks).map (Edit.at g)).countP (Mutation.pushesTo s) =
      if s = map.at g then ks.length else 0
  | [], _ => by simp [entriesEdits]
  | k :: ks, i => by
    rw [entriesEdits, List.map_append, List.countP_append, countP_entriesEdits]
    by_cases hs : s = map.at g
    · simp [entryEdits, Edit.at, Mutation.pushesTo, hs, Nat.add_comm]
    · simp [entryEdits, Edit.at, Mutation.pushesTo, hs, Ne.symm hs]

theorem countP_pushAll (xs : List NodeId) {s c : NodeId} : (xs.map (Mutation.pushItem c ·)).countP
    (Mutation.pushesTo s) = if s = c then xs.length else 0 := by
  rw [List.countP_map]
  by_cases hs : s = c
  · simp [Function.comp_def, Mutation.pushesTo, hs]
  · simp [Function.comp_def, Mutation.pushesTo, hs, Ne.symm hs]

/-- The nodes for the keyword arguments of a call. -/
def mapNodes (ks : List Keyword) : List (NodeKind × Payload) :=
  (.expr .mapLit, .none) :: ks.flatMap entryNodes

/-- The edits that collect the keyword arguments of a call. -/
def mapEdits (n : NodeId) (positional : List NodeId) (ks : List Keyword) : List Edit :=
  .clearItems n :: (pushEdits n positional ++ entriesEdits (.new 0) 1 ks ++
    [.pushItem n (.new 0)])

theorem patch_collectKeywordArgs (n : NodeId) (positional : List NodeId) (ks : List Keyword) :
    (Draft.patch do
      Draft.clearItems n
      positional.forM fun arg => Draft.pushItem n arg
      let map ← Draft.node (.expr .mapLit) .none
      ks.forM (addEntry map)
      Draft.pushItem n map) = ⟨mapNodes ks, mapEdits n positional ks⟩ := by
  have hpush : ∀ p : Patch, (positional.forM fun arg => Draft.pushItem n arg).run p =
      ((), ⟨p.nodes, p.edits ++ pushEdits n positional⟩) := run_pushAll n positional
  simp only [Draft.patch, Draft.run_bind, Draft.clearItems, Draft.run_edit, hpush, Draft.run_node,
    run_addEntries]
  simp only [Draft.pushItem, Draft.run_edit]
  simp [mapNodes, mapEdits, Patch.empty]

theorem kinds_of_mapNodes {ks : List Keyword} {m : NodeKind × Payload} (hm : m ∈ mapNodes ks) :
    m.1 = .expr .mapLit ∨ m.1 = .expr .mapEntry ∨ m.1 = .expr .strLit := by
  rcases List.mem_cons.1 hm with rfl | hm
  · exact Or.inl rfl
  · obtain ⟨k, -, hk⟩ := List.mem_flatMap.1 hm
    rcases List.mem_pair.1 hk with rfl | rfl
    · exact Or.inr (Or.inl rfl)
    · exact Or.inr (Or.inr rfl)

theorem roomy_mapEdits {ks : List Keyword} (hn : g.has n) (hxs : xs.length < 2 ^ 32)
    (hks : ks.length ≤ 2 ^ 32) :
    Mutation.Roomy (places g) ((mapEdits n xs ks).map (Edit.at g)) := by
  rw [mapEdits, List.map_cons]
  refine ⟨trivial, Mutation.roomy_of_countP fun s => ?_⟩
  have hnew : n ≠ (Handle.new 0).at g := by
    rintro rfl
    cases hn.symm.trans has_new
  rw [List.map_append, List.map_append, map_pushEdits, List.countP_append, List.countP_append,
    countP_pushAll, countP_entriesEdits]
  have hlast : ([Edit.pushItem n (.new 0)].map (Edit.at g)).countP (Mutation.pushesTo s) =
      if s = n then 1 else 0 := countP_pushAll [(Handle.new 0).at g]
  rw [hlast, Edit.at, Mutation.fill, Function.update_apply, Handle.at]
  by_cases hsn : s = n
  · rw [if_pos hsn, if_pos hsn, if_neg fun h => hnew (hsn.symm.trans h), if_pos hsn]
    omega
  · rw [if_neg hsn, if_neg hsn, if_neg hsn]
    split
    · next hs =>
      rw [hs, places, Handle.at, has_new]
      simpa using hks
    · simpa using places_le

/-- An entry takes over the value of its keyword argument. -/
theorem fitting_entryEdits (hp : Parsed g root) (hc : Composed g root) {k : Keyword}
    (hk : Reads g k) (hnode : g.Below root k.node)
    (hmap : p.nodes[0]? = some (.expr .mapLit, .none))
    (hentry : p.nodes[i]? = some (.expr .mapEntry, .none))
    (hkey : p.nodes[i + 1]? = some (.expr .strLit, .str k.name)) :
    ∀ e ∈ entryEdits (.new 0) i k,
      Fitting (Reach g root p) (finalKind g [] p) (e.at g) := by
  have hvalue : g.Below root k.value := hp.below_limb hnode (hk.parent hp.balanced)
  have hlimb : (⟨.value, k.value⟩ : Edge) ∈ g.limbs k.node := by simp [hk.limbs]
  unfold entryEdits
  simp only [List.forall_mem_cons, List.not_mem_nil, false_imp_iff, implies_true, and_true]
  refine ⟨?_, ?_, ?_, ?_⟩
  · refine fitting_setChild hentry (reach_of_getElem? hkey) ⟨rfl, nofun, nofun⟩ fun _ => ?_
    rw [finalKind_at_new hkey]
    rfl
  · refine fitting_setChild hentry (Or.inl hvalue) ⟨rfl, nofun, nofun⟩ fun hpart => ?_
    rw [finalKind_old hp hvalue] at hpart ⊢
    have htakes := takes_of_limb hc hnode hlimb hpart
    rwa [hk.kind] at htakes
  · refine fitting_pushItem hmap (reach_of_getElem? hentry) fun _ => ?_
    rw [finalKind_at_new hentry]
    rfl
  · refine ⟨Or.inl hnode, ?_⟩
    rw [Handle.at, finalKind_surface (hp.has_below hnode) hk.kind]
    rfl

theorem plans_collectKeywordArgs (hp : Parsed g root) (hc : Composed g root)
    (hsmall : g.size ≤ 2 ^ 32) (hn : g.Below root n) (hkind : takesKeywords (g.kind n)) :
    Plans collectKeywordArgs g root n := by
  obtain ⟨ks, hnodes, hks, heffect⟩ := effect_collectKeywordArgs hp hn
  have hlength := length_items_lt hp hn
  have hnode : ∀ k ∈ ks, g.Below root k.node := by
    intro k hk
    have hitem : k.node ∈ (g.items n).filter (isKwArg g) := hnodes ▸ List.mem_map_of_mem hk
    exact hn.of_mem_items (List.mem_filter.1 hitem).1
  refine ⟨[], _, heffect, ?_⟩
  rw [patch_collectKeywordArgs]
  refine ⟨fun e he => ?_, roomy_mapEdits (hp.has_below hn) ?_ ?_, fun m hm hname => ?_,
    fun m hm => ?_, fun i hi r hr => ?_, nofun⟩
  · have hmap : (mapNodes ks)[0]? = some (NodeKind.expr .mapLit, Payload.none) := rfl
    rcases List.mem_cons.1 he with rfl | he
    · exact Or.inl hn
    rcases List.mem_append.1 he with he | he
    · rcases List.mem_append.1 he with he | he
      · -- a positional argument comes back
        obtain ⟨x, hx, rfl⟩ := List.mem_map.1 he
        have hx := (List.mem_filter.1 hx).1
        refine ⟨Or.inl hn, Or.inl (hn.of_mem_items hx), fun hpart => ?_⟩
        rw [finalKind_old hp (hn.of_mem_items hx)] at hpart ⊢
        rw [finalKind_old hp hn]
        exact takes_of_item hc hn hx hpart
      · obtain ⟨k, hk, j, he, hentry, hkey⟩ := mem_entriesEdits [_] he
        exact fitting_entryEdits hp hc (hks k hk) (hnode k hk) hmap hentry hkey e he
    · obtain rfl := List.mem_singleton.1 he
      refine ⟨Or.inl hn, reach_of_getElem? hmap, fun _ => ?_⟩
      rw [finalKind_at_new hmap]
      rw [finalKind_old hp hn]
      rcases Bool.or_eq_true_iff.1 hkind with h | h <;> rw [of_decide_eq_true h] <;> rfl
  · have hle := List.length_filter_le (fun arg => !isKwArg g arg) (g.items n)
    omega
  · have hle := List.length_filter_le (isKwArg g) (g.items n)
    rw [← hnodes, List.length_map] at hle
    omega
  · rcases kinds_of_mapNodes hm with h | h | h <;> rw [h] at hname <;> cases hname
  · rcases kinds_of_mapNodes hm with h | h | h <;> rw [h] <;> nofun
  · rcases kinds_of_mapNodes (List.getElem_mem hi) with h | h | h <;> rw [h] at hr <;> cases hr

/-! ## Loops over a container -/

/-- Whether an edit among the new nodes fits, by the kinds of these nodes. -/
def fitsAmong (nodes : List (NodeKind × Payload)) : Edit → Bool
  | .setChild (.new i) r (.new j) =>
    match nodes[i]?, nodes[j]? with
    | some m, some m' => !r.isItem && r ≠ .ref && r ≠ .locals && takes m.1 r (stead m'.1)
    | _, _ => false
  | .pushItem (.new i) (.new j) =>
    match nodes[i]?, nodes[j]? with
    | some m, some m' => takes m.1 (.item 0) (stead m'.1)
    | _, _ => false
  | _ => false

theorem fitting_of_fitsAmong {e : Edit} (h : fitsAmong p.nodes e) :
    Fitting (Reach g root p) (finalKind g [] p) (e.at g) := by
  unfold fitsAmong at h
  split at h
  · split at h
    · next hi hj =>
      simp only [Bool.and_eq_true, Bool.not_eq_true', decide_eq_true_eq] at h
      obtain ⟨⟨⟨hitem, href⟩, hlocals⟩, htakes⟩ := h
      refine fitting_setChild hi (reach_of_getElem? hj) ⟨hitem, href, hlocals⟩ fun _ => ?_
      rwa [finalKind_at_new hj]
    · cases h
  · split at h
    · next hi hj =>
      refine fitting_pushItem hi (reach_of_getElem? hj) fun _ => ?_
      rwa [finalKind_at_new hj]
    · cases h
  · cases h

/-- Whether some edit gives a new node a child in a role. -/
def gives (edits : List Edit) (i : Nat) (r : Role) : Bool :=
  edits.any fun
    | .setChild (.new j) q _ => j = i && q = r
    | _ => false

theorem exists_of_gives {edits : List Edit} (h : gives edits i r) :
    ∃ b, .setChild (.new i) r b ∈ edits := by
  obtain ⟨e, he, h⟩ := List.any_eq_true.1 h
  split at h
  · next j q b =>
    simp only [Bool.and_eq_true, decide_eq_true_eq] at h
    obtain ⟨rfl, rfl⟩ := h
    exact ⟨b, he⟩
  · cases h

theorem roomy_of_new {edits : List Edit} (hlength : edits.length ≤ 2 ^ 32)
    (h : ∀ s d, .pushItem s d ∈ edits → ∃ i, s = .new i) :
    Mutation.Roomy (places g) (edits.map (Edit.at g)) := by
  refine Mutation.roomy_of_countP fun s => ?_
  cases hs : g.has s with
  | true =>
    have hzero : (edits.map (Edit.at g)).countP (Mutation.pushesTo s) = 0 := by
      refine List.countP_eq_zero.2 fun m hm => ?_
      obtain ⟨e, he, rfl⟩ := List.mem_map.1 hm
      cases e with
      | pushItem a d =>
        obtain ⟨i, rfl⟩ := h a d he
        simp only [Edit.at, Mutation.pushesTo, decide_eq_true_eq]
        rintro rfl
        cases hs.symm.trans has_new
      | _ => exact Bool.false_ne_true
    rw [hzero]
    exact places_le
  | false =>
    have hle := List.countP_le_length (p := Mutation.pushesTo s) (l := edits.map (Edit.at g))
    rw [List.length_map] at hle
    simp only [places, hs, Bool.false_eq_true, if_false]
    omega

theorem run_newIdent (name : String) : (newIdent name).run p =
    (.new p.nodes.length, ⟨p.nodes ++ [(NodeKind.expr .ident, Payload.str name)], p.edits⟩) := rfl

theorem run_plusOne (name : String) : (plusOne name).run p = (.new p.nodes.length,
    ⟨p.nodes ++ [(NodeKind.expr (.binary .add), Payload.none), (.expr .ident, .str name),
        (.expr .intLit, .int 1)],
      p.edits ++ [Edit.setChild (.new p.nodes.length) .left (.new (p.nodes.length + 1)),
        .setChild (.new p.nodes.length) .right (.new (p.nodes.length + 2))]⟩) := by
  simp only [plusOne, newIdent, Draft.run_bind, Draft.run_node, Draft.setChild, Draft.run_edit,
    Draft.run_pure]
  simp

theorem run_newBinding (kind : StmtKind) : (newBinding kind a b).run p = (.new p.nodes.length,
    ⟨p.nodes ++ [(NodeKind.stmt kind, Payload.none)],
      p.edits ++ [Edit.setChild (.new p.nodes.length) .target a,
        .setChild (.new p.nodes.length) .value b]⟩) := by
  simp only [newBinding, Draft.run_bind, Draft.run_node, Draft.setChild, Draft.run_edit,
    Draft.run_pure]
  simp

section Loop

variable (var : String) (iter body : NodeId) (iterator counter : String)

/-- The nodes of a counting loop. -/
def loopNodes : List (NodeKind × Payload) :=
  [(.stmt .block, .none), (.expr .ident, .str iterator), (.stmt .varInit, .none),
    (.expr .ident, .str counter), (.expr .intLit, .int (-1)), (.stmt .varInit, .none),
    (.expr (.binary .lt), .none), (.expr (.binary .add), .none), (.expr .ident, .str counter),
    (.expr .intLit, .int 1), (.expr .len, .none), (.expr .ident, .str iterator),
    (.expr .ident, .str counter), (.expr (.binary .add), .none), (.expr .ident, .str counter),
    (.expr .intLit, .int 1), (.stmt .assign, .none), (.expr .index, .none),
    (.expr .ident, .str iterator), (.expr .ident, .str counter), (.expr .ident, .str var),
    (.stmt .assign, .none), (.stmt .block, .none), (.stmt .whileLoop, .none)]

/-- The edits that put a counting loop together. -/
def loopEdits : List Edit :=
  [.setChild (.new 2) .target (.new 1), .setChild (.new 2) .value iter,
    .setChild (.new 5) .target (.new 3), .setChild (.new 5) .value (.new 4),
    .setChild (.new 7) .left (.new 8), .setChild (.new 7) .right (.new 9),
    .setChild (.new 10) .operand (.new 11), .setChild (.new 6) .left (.new 7),
    .setChild (.new 6) .right (.new 10), .setChild (.new 13) .left (.new 14),
    .setChild (.new 13) .right (.new 15), .setChild (.new 16) .target (.new 12),
    .setChild (.new 16) .value (.new 13), .setChild (.new 17) .value (.new 18),
    .setChild (.new 17) .key (.new 19), .setChild (.new 21) .target (.new 20),
    .setChild (.new 21) .value (.new 17), .pushItem (.new 22) (.new 16),
    .pushItem (.new 22) (.new 21), .pushItem (.new 22) body,
    .setChild (.new 23) .cond (.new 6), .setChild (.new 23) .body (.new 22),
    .pushItem (.new 0) (.new 2), .pushItem (.new 0) (.new 5), .pushItem (.new 0) (.new 23)]

theorem run_countingLoop : (countingLoop var iter body iterator counter).run .empty =
    (.new 0, ⟨loopNodes var iterator counter, loopEdits iter body⟩) := by
  simp only [countingLoop, Draft.run_bind, Draft.run_node, run_newIdent, run_newBinding,
    run_plusOne, Draft.setChild, Draft.pushItem, Draft.run_edit, Draft.run_pure]
  simp [loopNodes, loopEdits, Patch.empty]

/-- All edits but two are among the new nodes, and these fit. -/
theorem cases_loopEdits {e : Edit} (he : e ∈ loopEdits iter body) :
    fitsAmong (loopNodes var iterator counter) e ∨
      e = .setChild (.new 2) .value iter ∨ e = .pushItem (.new 22) body := by
  have hrest : (loopEdits iter body).filter
      (fun e => !fitsAmong (loopNodes var iterator counter) e) =
        [.setChild (.new 2) .value iter, .pushItem (.new 22) body] := rfl
  refine or_iff_not_imp_left.2 fun hfits => List.mem_pair.1 ?_
  rw [← hrest]
  exact List.mem_filter.2 ⟨he, by simpa using hfits⟩

/-- The nodes are named where they must be, and none of them makes an object. -/
theorem named_loopNodes {m : NodeKind × Payload} (hm : m ∈ loopNodes var iterator counter) :
    (bearsName m.1 → m.2.name?.isSome) ∧ m.1 ≠ .expr .objectInit := by
  have hall : ((loopNodes var iterator counter).all fun m =>
      (!bearsName m.1 || m.2.name?.isSome) && m.1 ≠ .expr .objectInit) = true := rfl
  have h := List.all_eq_true.1 hall m hm
  simp only [Bool.and_eq_true, Bool.or_eq_true, Bool.not_eq_true', decide_eq_true_eq] at h
  exact ⟨fun hname => h.1.resolve_left (by simp [hname]), h.2⟩

/-- The nodes get the parts that they must have. -/
theorem complete_loopNodes {i : Nat} (hi : i < (loopNodes var iterator counter).length) {r : Role}
    (hr : r ∈ parts ((loopNodes var iterator counter)[i]).1) :
    ∃ b, .setChild (.new i) r b ∈ loopEdits iter body := by
  have hall : ((loopNodes var iterator counter).zipIdx.all fun m =>
      (parts m.1.1).all (gives (loopEdits iter body) m.2)) = true := rfl
  have hmem : ((loopNodes var iterator counter)[i], i) ∈
      (loopNodes var iterator counter).zipIdx :=
    List.mem_zipIdx_iff_getElem?.2 (List.getElem?_eq_getElem hi)
  exact exists_of_gives (List.all_eq_true.1 (List.all_eq_true.1 hall _ hmem) r hr)

end Loop

theorem plans_lowerForIn (hp : Parsed g root) (hc : Composed g root) (hn : g.Below root n)
    (hk : g.kind n = .surface .forIn) : Plans lowerForIn g root n := by
  obtain ⟨name, iter, body, hlimbs, heffect⟩ := effect_lowerForIn hp hn hk
  have hlimb : ∀ e ∈ g.limbs n, g.Below root e.node ∧
      takes (.surface .forIn) e.role (stead (g.kind e.node)) := by
    intro e he
    have htakes := takes_of_limb hc hn he (isPart_of_forIn hp hn hk he)
    rw [hk] at htakes
    exact ⟨hn.limb he, htakes⟩
  obtain ⟨hiter, hvalue⟩ := hlimb ⟨.iter, iter⟩ (by simp [hlimbs])
  obtain ⟨hbody, hkind⟩ := hlimb ⟨.body, body⟩ (by simp [hlimbs])
  have hcases : ∀ e ∈ loopEdits iter body, _ :=
    fun e he => cases_loopEdits name iter body (iteratorName n) (counterName n) he
  have hplan : Plan g root [] ⟨loopNodes name (iteratorName n) (counterName n),
      loopEdits iter body⟩ := by
    refine ⟨fun e he => ?_, roomy_of_new (by simp [loopEdits]) fun s d he => ?_,
      fun m hm => (named_loopNodes _ _ _ hm).1, fun m hm => (named_loopNodes _ _ _ hm).2,
      fun i hi r hr => complete_loopNodes _ iter body _ _ hi hr, nofun⟩
    · have hinit : (loopNodes name (iteratorName n) (counterName n))[2]? =
          some (NodeKind.stmt .varInit, Payload.none) := rfl
      have hblock : (loopNodes name (iteratorName n) (counterName n))[22]? =
          some (NodeKind.stmt .block, Payload.none) := rfl
      rcases hcases e he with hfits | rfl | rfl
      · exact fitting_of_fitsAmong hfits
      · refine fitting_setChild hinit (Or.inl hiter) ⟨rfl, nofun, nofun⟩ fun _ => ?_
        rw [finalKind_old hp hiter]
        exact hvalue
      · refine fitting_pushItem hblock (Or.inl hbody) fun _ => ?_
        rw [finalKind_old hp hbody, of_decide_eq_true hkind]
        rfl
    · rcases hcases _ he with hfits | h | h
      · cases s with
        | old x => cases hfits
        | new i => exact ⟨i, rfl⟩
      · cases h
      · exact ⟨22, (Edit.pushItem.inj h).1⟩
  refine ⟨[], _, heffect, ?_⟩
  rw [patch_retire (countingLoop name iter body (iteratorName n) (counterName n))
    fun outer => outer, run_countingLoop]
  refine hplan.retire hp hn hk rfl (reach_of_getElem? rfl) fun m r h => ?_
  rwa [finalKind_at_new rfl]

end Lowering

end TypeFlow
