import TypeFlow.Program
import TypeFlow.Proofs.Inference.Colored
import TypeFlow.Reference
/-!
# Types flow along bindings

A program binds values to places: assigned values to targets, defaults to fields, returned values
to return slots, and arguments to parameters and fields (`Binds`). In a program that inference
colored, the type of every bound value refines the type of its place, unless the value is void or
the place is dynamic (`binding_refines`).
-/

namespace TypeFlow

namespace Inference

open TypeSet Program

variable {g g' : Graph} {root src dst : NodeId} {t : BoundsTable}

/-- A binding of a value to a place below a root. -/
inductive Binds (g : Graph) (root : NodeId) : NodeId → NodeId → Prop
  /-- The value of a first or a later assignment, to its target. -/
  | assigned {n src dst : NodeId} (hn : g.Below root n)
      (hkind : g.kind n = .stmt .varInit ∨ g.kind n = .stmt .assign)
      (hsrc : g.child? n .value = some src) (hdst : g.child? n .target = some dst) :
      Binds g root src dst
  /-- The default of a field, to the field. -/
  | default {n src : NodeId} (hn : g.Below root n) (hkind : g.kind n = .decl .field)
      (hsrc : g.child? n .value = some src) : Binds g root src n
  /-- A returned value, to the slot of the nearest function around it. -/
  | returned {n func src dst : NodeId} (hn : g.Below root n) (hkind : g.kind n = .stmt .ret)
      (hsrc : g.child? n .value = some src) (hfunc : Flow.enclosing? g n .function = some func)
      (hdst : g.child? func .returnSlot = some dst) : Binds g root src dst
  /-- An argument of a call, to the parameter in its position of the function that is called. -/
  | passed {n func src dst : NodeId} {i : Nat} (hn : g.Below root n)
      (hkind : g.kind n = .expr .call) (hfunc : g.child? n .ref = some func)
      (hsrc : (g.items n)[i]? = some src)
      (hdst : (Flow.members g func .param)[i]? = some dst) : Binds g root src dst
  /-- An argument of a new object, to the field in its position of the class. -/
  | constructed {n cls src dst : NodeId} {i : Nat} (hn : g.Below root n)
      (hkind : g.kind n = .expr .objectInit) (hcls : g.child? n .ref = some cls)
      (hsrc : (g.items n)[i]? = some src)
      (hdst : (Flow.members g cls .field)[i]? = some dst) : Binds g root src dst

/-- A node of a program that inference gives bounds to. -/
def IsTypable (g : Graph) (root n : NodeId) : Prop := g.Below root n ∧ (g.kind n).isTypable

theorem isTypable_child (hg : Resolved g root) {n m : NodeId} {r : Role} (hn : g.Below root n)
    (hm : g.child? n r = some m) (hr : r.isStructural)
    (hfits : ∀ k, Program.fits (g.kind n) r k → k.isTypable) : IsTypable g root m :=
  ⟨hg.below_child hn hm hr, hfits _ (hg.fits_child hn hm hr)⟩

theorem isTypable_arg (hg : Resolved g root) {n m : NodeId} {i : Nat} (hn : g.Below root n)
    (hkind : g.kind n = .expr .call ∨ g.kind n = .expr .objectInit)
    (hm : (g.items n)[i]? = some m) : IsTypable g root m := by
  have hmem := List.mem_of_getElem? hm
  obtain ⟨j, hfits⟩ := hg.fits_item hn hmem
  refine ⟨hn.of_mem_items hmem, isTypable_of_isValue ?_⟩
  rcases hkind with h | h <;> rwa [h] at hfits

theorem isTypable_member {host m : NodeId} {i : Nat} {kind : DeclKind}
    (hhost : g.Below root host) (hkind : (NodeKind.decl kind).isTypable)
    (hm : (Flow.members g host kind)[i]? = some m) : IsTypable g root m := by
  obtain ⟨hitem, hk⟩ := List.mem_filter.1 (List.mem_of_getElem? hm)
  have hk : g.kind m = .decl kind := by simpa using hk
  exact ⟨hhost.of_mem_items hitem, by rw [hk]; exact hkind⟩

theorem mem_zip_of_getElem? {places args : List NodeId} {i : Nat} (hp : places[i]? = some dst)
    (ha : args[i]? = some src) : (dst, src) ∈ places.zip args :=
  List.mem_of_getElem? (List.getElem?_zip_eq_some.2 ⟨hp, ha⟩)

/-- In a settled table bound values flow into their places, and both are typable. -/
theorem Settled.flows_of_binds (hg : Resolved g root) (ht : Settled g root t)
    (h : Binds g root src dst) :
    IsTypable g root src ∧ IsTypable g root dst ∧ Flows t src dst := by
  have hflows : IsTypable g root src → IsTypable g root dst →
      ((t.slot? dst).isSome → (t.slot? src).isSome → Flows t src dst) →
        IsTypable g root src ∧ IsTypable g root dst ∧ Flows t src dst :=
    fun hs hd hf => ⟨hs, hd, hf (ht.bound hd.1 hd.2) (ht.bound hs.1 hs.2)⟩
  cases h with
  | @assigned n _ _ hn hkind hsrc hdst =>
    have hassign : Flow.assignment? g n = some (dst, src) := by
      rcases hkind with h | h <;> simp [Flow.assignment?, h, hsrc, hdst]
    refine hflows (isTypable_child hg hn hsrc rfl ?_) (isTypable_child hg hn hdst rfl ?_)
      (ht.flows_assignment hn hassign)
    · rcases hkind with h | h <;> rw [h] <;> exact fun _ => isTypable_of_isValue
    · rcases hkind with h | h <;> rw [h] <;> exact fun _ => isTypable_of_isValue
  | default hn hkind hsrc =>
    have hassign : Flow.assignment? g dst = some (dst, src) := by
      simp [Flow.assignment?, hkind, hsrc]
    refine hflows (isTypable_child hg hn hsrc rfl ?_) ⟨hn, by rw [hkind]; rfl⟩
      (ht.flows_assignment hn hassign)
    rw [hkind]
    exact fun _ => isTypable_of_isValue
  | @returned n func _ _ hn hkind hsrc hfunc hdst =>
    have hreturned : Flow.returned? g n = some (dst, src) := by
      simp [Flow.returned?, hkind, hsrc, hfunc, hdst]
    obtain ⟨hbelow, hfkind⟩ := hg.below_enclosing hn hfunc
    refine hflows (isTypable_child hg hn hsrc rfl ?_) (isTypable_child hg hbelow hdst rfl ?_)
      (ht.flows_returned hn hreturned)
    · rw [hkind]
      exact fun _ => isTypable_of_isValue
    · rw [hfkind]
      rintro k hk
      rw [fits_returnSlot.1 hk]
      rfl
  | @passed n func _ _ i hn hkind hfunc hsrc hdst =>
    obtain ⟨hbelow, hrefers⟩ := hg.tied n hn func hfunc
    have hfkind : g.kind func = .decl .function := by simpa [hkind, refersTo] using hrefers
    have hbinding : Flow.callBinding g t n = .ok (.places [Flow.members g func .param]) := by
      simp only [Flow.callBinding, hkind, Graph.requireChild, hfunc]
      rfl
    exact hflows (isTypable_arg hg hn (Or.inl hkind) hsrc) (isTypable_member hbelow rfl hdst)
      (ht.flows_args hn (by simp [Flow.bindsArgs, hkind, hfunc, hfkind]) hbinding
        (List.mem_singleton_self _) (mem_zip_of_getElem? hdst hsrc))
  | @constructed n cls _ _ i hn hkind hcls hsrc hdst =>
    obtain ⟨hbelow, -⟩ := hg.tied n hn cls hcls
    have hbinding : Flow.callBinding g t n = .ok (.places [Flow.members g cls .field]) := by
      simp only [Flow.callBinding, hkind, Graph.requireChild, hcls]
      rfl
    exact hflows (isTypable_arg hg hn (Or.inr hkind) hsrc) (isTypable_member hbelow rfl hdst)
      (ht.flows_args hn (by simp [Flow.bindsArgs, hkind]) hbinding
        (List.mem_singleton_self _) (mem_zip_of_getElem? hdst hsrc))

/-- If an inference ends well, then every value that the program binds to a place is colored void,
or its place is colored dynamic, or its type refines the type of its place. -/
theorem binding_refines {ceiling : Nat} {allow : Bool} {report : Report} (hg : Resolved g root)
    (hrun : (run root ceiling allow).run g = (.ok report, g'))
    (hbinds : Binds (withReturnSlots g root) root src dst) :
    ∃ a b, g'.coloredType? src = some a ∧ g'.coloredType? dst = some b ∧
      (g'.kind a = .type .void ∨ g'.kind b = .type .dynamic ∨
        ∃ x y, g'.Denotes a x ∧ g'.Denotes b y ∧ Refines x y) := by
  obtain ⟨t, ht, hcolored⟩ := colored_of_run hg hrun
  obtain ⟨hsrc, hdst, hflows⟩ := ht.flows_of_binds (resolved_withReturnSlots hg) hbinds
  exact hcolored.refines ht hsrc.1 hsrc.2 hdst.1 hdst.2 hflows

/-- A function that returns its parameter, and a call of it with a number. -/
def callingSource : Build Unit := do
  let f ← Program.function "same"
  let _ ← Program.param f "n" none
  let n ← Program.ident "n"
  let _ ← Program.ret ⟨2⟩ (some n)
  let _ ← Program.function "main"
  let one ← Program.int 1
  let call ← Program.call "same" [one]
  let _ ← Program.varInit ⟨7⟩ "x" none call

/-- The program with its references tied. -/
def calling : Graph :=
  ((Reference.run Program.root 20).run (callingSource.run Program.empty).2).2

theorem binding_refines_calling : Resolved calling Program.root ∧
    ((run Program.root 20 false).run calling).1 = .ok ⟨⟨3, 2, 5⟩, 6, ⟨8, 0, 1⟩⟩ ∧
    Binds (withReturnSlots calling Program.root) Program.root ⟨8⟩ ⟨3⟩ ∧
    ∃ a b, ((run Program.root 20 false).run calling).2.coloredType? ⟨8⟩ = some a ∧
      ((run Program.root 20 false).run calling).2.coloredType? ⟨3⟩ = some b ∧
      (((run Program.root 20 false).run calling).2.kind a = .type .void ∨
        ((run Program.root 20 false).run calling).2.kind b = .type .dynamic ∨
        ∃ x y, ((run Program.root 20 false).run calling).2.Denotes a x ∧
          ((run Program.root 20 false).run calling).2.Denotes b y ∧ Refines x y) := by
  have hresolved : Resolved calling Program.root := by decide +kernel
  have hrun : ((run Program.root 20 false).run calling).1 = .ok ⟨⟨3, 2, 5⟩, 6, ⟨8, 0, 1⟩⟩ := by
    decide +kernel
  have hcall : (withReturnSlots calling Program.root).Below Program.root ⟨9⟩ :=
    Graph.mem_visits_down.1 (by decide +kernel)
  have hbinds : Binds (withReturnSlots calling Program.root) Program.root ⟨8⟩ ⟨3⟩ :=
    @Binds.passed _ _ ⟨9⟩ ⟨1⟩ ⟨8⟩ ⟨3⟩ 0 hcall (by decide +kernel) (by decide +kernel)
      (by decide +kernel) (by decide +kernel)
  exact ⟨hresolved, hrun, hbinds, binding_refines hresolved (Prod.fst_eq_iff.1 hrun) hbinds⟩

end Inference

end TypeFlow
