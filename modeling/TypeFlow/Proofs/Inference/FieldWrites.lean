import TypeFlow.Program
import TypeFlow.Proofs.Inference.Bindings
import TypeFlow.Proofs.Inference.Ending
import TypeFlow.Reference
/-!
# Writes to the fields of other objects

What is written through a receiver that holds objects of classes alone flows into the field of each
of them (`Settled.sub_of_fieldWrite`), but the field does not restrict what may be written. So the
type of the value refines that of the field where the field permits all that the value
yields (`field_write_refines`); a receiver that may hold something else besides keeps the write from
the field, and a declared field is not respected (`field_write_unsound`).
-/

namespace TypeFlow

namespace Inference

open TypeSet Program

variable {g g' : Graph} {root target value base field c : NodeId} {name : String}
  {t seeds : BoundsTable} {stats : Stats} {ceiling : Nat} {allow : Bool} {report : Report}

/-- An assignment to a field of an object that is not the one around it. -/
structure FieldWrite (g : Graph) (root target value base : NodeId) (name : String) : Prop where
  assigned : ∃ n, g.Below root n ∧ (g.kind n = .stmt .varInit ∨ g.kind n = .stmt .assign) ∧
    g.child? n .target = some target ∧ g.child? n .value = some value
  kind : g.kind target = .expr .fieldGet
  free : g.child? target .ref = none
  named : g.name? target = some name
  receiver : g.child? target .receiver = some base

/-- A write is found by its statement. -/
theorem fieldWrite_at (n : NodeId) (h : n ∈ g.visits (.down root) ∧
      (g.kind n = .stmt .varInit ∨ g.kind n = .stmt .assign) ∧
      g.child? n .target = some target ∧ g.child? n .value = some value ∧
      g.kind target = .expr .fieldGet ∧ g.child? target .ref = none ∧
      g.name? target = some name ∧ g.child? target .receiver = some base) :
    FieldWrite g root target value base name :=
  ⟨⟨n, Graph.mem_visits_down.1 h.1, h.2.1, h.2.2.1, h.2.2.2.1⟩, h.2.2.2.2.1, h.2.2.2.2.2.1,
    h.2.2.2.2.2.2.1, h.2.2.2.2.2.2.2⟩

/-- A receiver that shows classes alone, and one of them, is one of classes. -/
theorem exists_receiver (hclasses : ∀ x ∈ (t.shown base).leaves, ∃ d, x = .cls d)
    (hc : .cls c ∈ (t.shown base).leaves) :
    ∃ decls, Flow.receiver t base = .classes decls ∧ c ∈ decls := by
  have hlist : ∀ {xs : List TypeSet}, (∀ x ∈ xs, ∃ d, x = .cls d) →
      ∃ decls : List NodeId, xs = decls.map TypeSet.cls := by
    intro xs
    induction xs with
    | nil => exact fun _ => ⟨[], rfl⟩
    | cons x xs ih =>
      intro h
      obtain ⟨⟨d, rfl⟩, hxs⟩ := List.forall_mem_cons.1 h
      obtain ⟨decls, rfl⟩ := ih hxs
      exact ⟨d :: decls, rfl⟩
  obtain ⟨decls, hdecls⟩ := hlist hclasses
  have hne : t.shown base ≠ .empty := by
    intro he
    rw [he] at hc
    cases hc
  refine ⟨decls, ?_, ?_⟩
  · rw [Flow.receiver, if_neg hne, Flow.mapM_classOf?.2 hdecls]
  · rw [hdecls] at hc
    obtain ⟨d, hd, heq⟩ := List.mem_map.1 hc
    cases heq
    exact hd

/-- In a settled table a written value flows into the field of each class that the receiver holds,
if it holds classes alone. -/
theorem Settled.sub_of_fieldWrite (ht : Settled g root t)
    (hwrite : FieldWrite g root target value base name)
    (hclasses : ∀ x ∈ (t.shown base).leaves, ∃ d, x = .cls d)
    (hc : .cls c ∈ (t.shown base).leaves) (hfield : Flow.member? g c .field name = some field)
    (hslot : (t.slot? field).isSome) : (t.shown value).Sub (t.shown field) := by
  by_cases he : t.shown value = .empty
  · rw [he]
    exact empty_sub _
  · obtain ⟨n, hn, hkind, htarget, hvalue⟩ := hwrite.assigned
    have hassign : Flow.assignment? g n = some (target, value) := by
      rcases hkind with h | h <;> simp [Flow.assignment?, h, htarget, hvalue]
    obtain ⟨decls, hreceiver, hmem⟩ := exists_receiver hclasses hc
    have hfields : Flow.writtenFields g t target =
        .ok (decls.filterMap fun d => Flow.member? g d .field name) := by
      rw [Flow.writtenFields, if_pos ⟨hwrite.kind, by simp [Graph.hasChild, hwrite.free]⟩,
        Graph.requireName_eq_ok.2 hwrite.named, Run.ok_bind,
        Graph.requireChild_eq_ok.2 hwrite.receiver, Run.ok_bind]
      simp only [hreceiver]
      rfl
    obtain ⟨requests, hasks, hq⟩ := ht.quiet (Flow.assignRule g) (by simp [Flow.rules]) n hn
      (by simp [Flow.assignRule, hassign])
    simp only [Flow.assignRule, hassign, if_neg he, hfields, Run.ok_bind] at hasks
    obtain rfl := Run.pure_eq_ok.1 hasks
    refine ht.sub_of_widen (ht.sound.canonical_shown value) hslot hq
      (List.mem_map_of_mem (List.mem_cons_of_mem target ?_))
    exact List.mem_filterMap.2 ⟨c, hmem, hfield⟩

/-- The table in which the rules of an inference come to rest, if they do. -/
def restedTable? (g : Graph) (root : NodeId) (ceiling : Nat) (allow : Bool) :
    Option BoundsTable :=
  match seeded g root allow with
  | .error _ => none
  | .ok seeds =>
    match settled g root ceiling seeds with
    | .error _ => none
    | .ok (_, t) => some t

/-- An inference that ends well colors the program from the table in which its rules rest. -/
theorem settled_of_rested (hg : Resolved g root)
    (hrun : (run root ceiling allow).run g = (.ok report, g'))
    (hrested : restedTable? (withReturnSlots g root) root ceiling allow = some t) :
    Settled (withReturnSlots g root) root t ∧ Colored (withReturnSlots g root) root t g' := by
  have hslots := resolved_withReturnSlots hg
  cases ends_of_run hg hrun nofun with
  | colored hseeds hsettled hall hcolored =>
    simp only [restedTable?, hseeds, hsettled, Option.some.injEq] at hrested
    subst hrested
    exact ⟨settled_of_seeded hslots hseeds hsettled, hcolored⟩

/-- If an inference ends well, a value that is written through a receiver of classes alone flows
into the field of each class that the receiver shows; and where the field permits what the value
yields, the value is colored void, or the field dynamic, or the type of the value refines that of
the field. -/
theorem field_write_refines (hg : Resolved g root)
    (hrun : (run root ceiling allow).run g = (.ok report, g'))
    (hrested : restedTable? (withReturnSlots g root) root ceiling allow = some t)
    (hwrite : FieldWrite (withReturnSlots g root) root target value base name)
    (hclasses : ∀ x ∈ (t.shown base).leaves, ∃ d, x = .cls d)
    (hc : .cls c ∈ (t.shown base).leaves)
    (hfield : Flow.member? (withReturnSlots g root) c .field name = some field) :
    (t.shown value).Sub (t.shown field) ∧
      (((t.shown value).inter (t.permitted value)).Within (t.permitted field) →
        ∃ a b, g'.coloredType? value = some a ∧ g'.coloredType? field = some b ∧
          (g'.kind a = .type .void ∨ g'.kind b = .type .dynamic ∨
            ∃ x y, g'.Denotes a x ∧ g'.Denotes b y ∧ Refines x y)) := by
  have hslots := resolved_withReturnSlots hg
  obtain ⟨ht, hcolored⟩ := settled_of_rested hg hrun hrested
  obtain ⟨hitem, hkind⟩ := List.mem_filter.1 (List.mem_of_find?_eq_some hfield)
  have hfieldkind : ((withReturnSlots g root).kind field).isTypable := by
    rw [of_decide_eq_true hkind]
    rfl
  have hclass : IsClass (withReturnSlots g root) root c :=
    (ht.leaves.shown base).2 (fun hu => by rw [hu] at hc; simp [TypeSet.leaves] at hc) _ hc
  have hfieldbelow := hclass.1.of_mem_items hitem
  have hflow := ht.sub_of_fieldWrite hwrite hclasses hc hfield (ht.bound hfieldbelow hfieldkind)
  obtain ⟨n, hn, hassigned, -, hvalue⟩ := hwrite.assigned
  have hvaluetypable : IsTypable (withReturnSlots g root) root value := by
    refine isTypable_child hslots hn hvalue rfl ?_
    rcases hassigned with h | h <;> rw [h] <;> exact fun _ => isTypable_of_isValue
  have hs := ht.sound.canonical_shown
  have hp := ht.sound.canonical_permitted
  exact ⟨hflow, fun hpermits => hcolored.refines_of_within ht hvaluetypable.1 hvaluetypable.2
    hfieldbelow hfieldkind (within_inter (hs field) (hp field)
      ((inter_within_left (hs value) (hp value)).trans hflow.within) hpermits)⟩

/-- A class with a field that holds a number, and an object of it in a variable `x`; the answer is
the block of the variable. -/
def objectIn (type? : Option BaseType) : Build NodeId := do
  let cls ← Program.classDecl "A"
  let type? ← type?.mapM Program.baseType
  let one ← Program.int 1
  let _ ← Program.field cls "f" type? (some one)
  let main ← Program.function "main"
  let block : NodeId := ⟨main.index + 1⟩
  let object ← Program.call "A" []
  let _ ← Program.varInit block "x" none object
  return block

/-- Write a text to the field of what is in the variable. -/
def writeField (block : NodeId) : Build Unit := do
  let target ← Program.fieldGet (← Program.ident "x") "f"
  let _ ← Program.assign block target (← Program.string "s")

/-- A program with its references tied. -/
def tied (source : Build Unit) : Graph :=
  ((Reference.run Program.root 20).run (source.run Program.empty).2).2

/-- A field without a declared type is written. -/
def openField : Graph := tied do writeField (← objectIn none)

theorem fieldWrite_openField :
    FieldWrite (withReturnSlots openField Program.root) Program.root ⟨10⟩ ⟨11⟩ ⟨9⟩ "f" :=
  fieldWrite_at ⟨12⟩ (by decide +kernel)

/-- The field takes the text besides its default, and is dynamic. -/
theorem field_write_refines_openField : Resolved openField Program.root ∧
    ((run Program.root 20 true).run openField).1 = .ok ⟨⟨3, 2, 7⟩, 7, ⟨9, 2, 1⟩⟩ ∧
    FieldWrite (withReturnSlots openField Program.root) Program.root ⟨10⟩ ⟨11⟩ ⟨9⟩ "f" ∧
    Flow.member? (withReturnSlots openField Program.root) ⟨1⟩ .field "f" = some ⟨3⟩ ∧
    ∃ t, restedTable? (withReturnSlots openField Program.root) Program.root 20 true = some t ∧
      (∀ x ∈ (t.shown ⟨9⟩).leaves, ∃ d, x = .cls d) ∧ .cls ⟨1⟩ ∈ (t.shown ⟨9⟩).leaves ∧
      ((t.shown ⟨11⟩).inter (t.permitted ⟨11⟩)).Within (t.permitted ⟨3⟩) ∧
      (t.shown ⟨11⟩).Sub (t.shown ⟨3⟩) ∧
      ∃ a b, ((run Program.root 20 true).run openField).2.coloredType? ⟨11⟩ = some a ∧
        ((run Program.root 20 true).run openField).2.coloredType? ⟨3⟩ = some b ∧
        (((run Program.root 20 true).run openField).2.kind a = .type .void ∨
          ((run Program.root 20 true).run openField).2.kind b = .type .dynamic ∨
          ∃ x y, ((run Program.root 20 true).run openField).2.Denotes a x ∧
            ((run Program.root 20 true).run openField).2.Denotes b y ∧ Refines x y) := by
  have hresolved : Resolved openField Program.root := by decide +kernel
  have hrun : ((run Program.root 20 true).run openField).1 =
      .ok ⟨⟨3, 2, 7⟩, 7, ⟨9, 2, 1⟩⟩ := by
    decide +kernel
  have htable : Flow.member? (withReturnSlots openField Program.root) ⟨1⟩ .field "f" =
        some ⟨3⟩ ∧
      (restedTable? (withReturnSlots openField Program.root) Program.root 20 true).map
        (fun t => ((t.shown ⟨9⟩).leaves, t.permitted ⟨3⟩)) = some ([.cls ⟨1⟩], .univ) := by
    decide +kernel
  obtain ⟨hfield, htable⟩ := htable
  obtain ⟨t, ht, hsets⟩ := Option.map_eq_some_iff.1 htable
  obtain ⟨hleaves, hpermitted⟩ := Prod.mk.inj hsets
  have hclasses : ∀ x ∈ (t.shown ⟨9⟩).leaves, ∃ d, x = .cls d := by simp [hleaves]
  have hc : .cls ⟨1⟩ ∈ (t.shown ⟨9⟩).leaves := by simp [hleaves]
  have hpermits : ((t.shown ⟨11⟩).inter (t.permitted ⟨11⟩)).Within (t.permitted ⟨3⟩) := by
    simp [hpermitted]
  obtain ⟨hflow, hcolors⟩ := field_write_refines hresolved (Prod.fst_eq_iff.1 hrun) ht
    fieldWrite_openField hclasses hc hfield
  exact ⟨hresolved, hrun, fieldWrite_openField, hfield, t, ht, hclasses, hc, hpermits, hflow,
    hcolors hpermits⟩

/-! ## What is missed -/

/-- A field that is declared as a number is written. -/
def declaredField : Graph := tied do writeField (← objectIn (some .int))

/-- A field is written through a variable that may hold a number besides the object. -/
def mixedReceiver : Graph := tied do
  let block ← objectIn none
  let _ ← Program.assign block (← Program.ident "x") (← Program.int 3)
  writeField block

/-- A text is written to a field that is colored as a number: its declared type does not restrict
what is written, and through a receiver that is not of classes alone the text does not reach it. -/
theorem field_write_unsound :
    (Resolved declaredField Program.root ∧
      ((run Program.root 20 true).run declaredField).1.isOk ∧
      FieldWrite (withReturnSlots declaredField Program.root) Program.root ⟨11⟩ ⟨12⟩ ⟨10⟩ "f" ∧
      Flow.member? (withReturnSlots declaredField Program.root) ⟨1⟩ .field "f" = some ⟨4⟩ ∧
      (restedTable? (withReturnSlots declaredField Program.root) Program.root 20 true).map
        (fun t => (t.shown ⟨10⟩).leaves) = some [.cls ⟨1⟩] ∧
      reading? ((run Program.root 20 true).run declaredField).2 ⟨12⟩ = some "string" ∧
      reading? ((run Program.root 20 true).run declaredField).2 ⟨4⟩ = some "int") ∧
    Resolved mixedReceiver Program.root ∧
      ((run Program.root 20 true).run mixedReceiver).1.isOk ∧
      FieldWrite (withReturnSlots mixedReceiver Program.root) Program.root ⟨13⟩ ⟨14⟩ ⟨12⟩ "f" ∧
      Flow.member? (withReturnSlots mixedReceiver Program.root) ⟨1⟩ .field "f" = some ⟨3⟩ ∧
      (restedTable? (withReturnSlots mixedReceiver Program.root) Program.root 20 true).map
        (fun t => (t.shown ⟨12⟩).leaves) = some [.base .int, .cls ⟨1⟩] ∧
      reading? ((run Program.root 20 true).run mixedReceiver).2 ⟨14⟩ = some "string" ∧
      reading? ((run Program.root 20 true).run mixedReceiver).2 ⟨3⟩ = some "int" := by
  have hdeclared : Resolved declaredField Program.root ∧
      ((run Program.root 20 true).run declaredField).1.isOk ∧
      Flow.member? (withReturnSlots declaredField Program.root) ⟨1⟩ .field "f" = some ⟨4⟩ ∧
      (restedTable? (withReturnSlots declaredField Program.root) Program.root 20 true).map
        (fun t => (t.shown ⟨10⟩).leaves) = some [.cls ⟨1⟩] ∧
      reading? ((run Program.root 20 true).run declaredField).2 ⟨12⟩ = some "string" ∧
      reading? ((run Program.root 20 true).run declaredField).2 ⟨4⟩ = some "int" := by
    decide +kernel
  have hmixed : Resolved mixedReceiver Program.root ∧
      ((run Program.root 20 true).run mixedReceiver).1.isOk ∧
      Flow.member? (withReturnSlots mixedReceiver Program.root) ⟨1⟩ .field "f" = some ⟨3⟩ ∧
      (restedTable? (withReturnSlots mixedReceiver Program.root) Program.root 20 true).map
        (fun t => (t.shown ⟨12⟩).leaves) = some [.base .int, .cls ⟨1⟩] ∧
      reading? ((run Program.root 20 true).run mixedReceiver).2 ⟨14⟩ = some "string" ∧
      reading? ((run Program.root 20 true).run mixedReceiver).2 ⟨3⟩ = some "int" := by
    decide +kernel
  obtain ⟨hresolved, hok, hrest⟩ := hdeclared
  obtain ⟨hresolved', hok', hrest'⟩ := hmixed
  exact ⟨⟨hresolved, hok, fieldWrite_at ⟨13⟩ (by decide +kernel), hrest⟩, hresolved', hok',
    fieldWrite_at ⟨15⟩ (by decide +kernel), hrest'⟩

end Inference

end TypeFlow
