import TypeFlow.Proofs.Bounds.Order
import TypeFlow.Proofs.Flow.Leaves
/-!
# How receivers are treated

While nothing is shown of a receiver, the rules that read it ask for nothing. Then they take it for
one of classes with the member, or for untyped (`treatment?`). Further up, a receiver that was
shown to hold classes holds these and maybe more, or is untyped (`receiver_mono`); if it is treated
alike, so that one of the cases stays ruled out, it has all members that it had
(`members_mono`).
-/

namespace TypeFlow

open TypeSet

namespace Flow

variable {g : Graph} {t T : BoundsTable} {n m : NodeId}

/-- The receiver of a method call or of a field that is read from an object, and the kind and the
name of the member that is asked of it. -/
def access? (g : Graph) (n : NodeId) : Option (NodeId × DeclKind × String) :=
  match g.kind n with
  | .expr .methodCall => do return (← g.child? n .receiver, .function, ← g.name? n)
  | .expr .fieldGet =>
    if g.hasChild n .ref then none
    else do return (← g.child? n .receiver, .field, ← g.name? n)
  | _ => none

theorem access?_of_methodCall {name : String} {target : NodeId}
    (hkind : g.kind n = .expr .methodCall) (hname : g.requireName n = .ok name)
    (htarget : g.requireChild n .receiver = .ok target) :
    access? g n = some (target, .function, name) := by
  simp [access?, hkind, Graph.requireName_eq_ok.1 hname, Graph.requireChild_eq_ok.1 htarget]

theorem access?_of_fieldGet {name : String} {target : NodeId}
    (hkind : g.kind n = .expr .fieldGet) (href : g.hasChild n .ref = false)
    (hname : g.requireName n = .ok name) (htarget : g.requireChild n .receiver = .ok target) :
    access? g n = some (target, .field, name) := by
  simp [access?, hkind, href, Graph.requireName_eq_ok.1 hname, Graph.requireChild_eq_ok.1 htarget]

/-- Whether a class of a list has a member. -/
def hasMember (g : Graph) (decls : List NodeId) (kind : DeclKind) (name : String) : Bool :=
  decls.any fun c => (member? g c kind name).isSome

/-- How the receiver of an access is treated: not at all while nothing is shown of it, as one of
classes if one of these has the member, and otherwise as untyped. -/
def treatment? (g : Graph) (t : BoundsTable) (n : NodeId) : Option Bool := do
  let (target, kind, name) ← access? g n
  match receiver t target with
  | .pending => none
  | .dynamic => some false
  | .classes decls => some (hasMember g decls kind name)

/-- The receiver of an access is not treated differently in two tables. -/
def Alike (g : Graph) (t T : BoundsTable) (n : NodeId) : Prop :=
  ∀ v w, treatment? g t n = some v → treatment? g T n = some w → v = w

/-- A receiver that shows something shows classes alone as long as it does so further up, and
among them those of further down. -/
theorem receiver_mono (ht : t.Sound) (h : (t.shown n).Within (T.shown n)) :
    receiver t n = .pending ∨ receiver T n = .dynamic ∨ ∃ decls decls',
      receiver t n = .classes decls ∧ receiver T n = .classes decls' ∧
        ∀ c ∈ decls, c ∈ decls' := by
  by_cases he : t.shown n = .empty
  · exact Or.inl (by simp [receiver, he])
  have he' : T.shown n ≠ .empty := fun hT => he (within_empty (ht.canonical_shown n) (hT ▸ h))
  cases hdecls' : (T.shown n).leaves.mapM classOf? with
  | none => exact Or.inr (Or.inl (by simp [receiver, he', hdecls']))
  | some decls' =>
    have hT : receiver T n = .classes decls' := by simp [receiver, he', hdecls']
    obtain ⟨hu, -⟩ := cls_mem_of_receiver hT
    obtain ⟨hu', hadmits⟩ := h.resolve_left hu
    have hleaves := mapM_classOf?.1 hdecls'
    -- what refines a class is that class
    have hcls : ∀ x ∈ (t.shown n).leaves, ∃ c ∈ decls', x = .cls c := fun x hx => by
      obtain ⟨y, hy, hxy⟩ := (hadmits x hx).resolve_left hu
      rw [hleaves] at hy
      obtain ⟨c, hc, rfl⟩ := List.mem_map.1 hy
      cases hxy
      exact ⟨c, hc, rfl⟩
    have hdecls : ∃ decls : List NodeId, (t.shown n).leaves = decls.map .cls := by
      generalize (t.shown n).leaves = xs at hcls
      induction xs with
      | nil => exact ⟨[], rfl⟩
      | cons x xs ih =>
        obtain ⟨decls, rfl⟩ := ih fun y hy => hcls y (List.mem_cons_of_mem _ hy)
        obtain ⟨c, -, rfl⟩ := hcls x List.mem_cons_self
        exact ⟨c :: decls, rfl⟩
    obtain ⟨decls, hdecls⟩ := hdecls
    refine Or.inr (Or.inr ⟨decls, decls', ?_, hT, fun c hc => ?_⟩)
    · simp [receiver, he, mapM_classOf?.2 hdecls]
    · obtain ⟨c', hc', heq⟩ := hcls (.cls c) (hdecls ▸ List.mem_map_of_mem hc)
      exact TypeSet.cls.inj heq ▸ hc'

theorem hasMember_eq_false {decls : List NodeId} {kind : DeclKind} {name : String} :
    hasMember g decls kind name = false ↔
      (decls.filterMap fun c => member? g c kind name) = [] := by
  simp [hasMember, List.filterMap_eq_nil_iff]

/-- The members of classes that are treated alike: either there are none in both cases, or those
of further down are among those of further up. -/
theorem members_mono {decls decls' : List NodeId} {target : NodeId} {kind : DeclKind}
    {name : String} (haccess : access? g n = some (target, kind, name))
    (hdecls : receiver t target = .classes decls) (hdecls' : receiver T target = .classes decls')
    (hsub : ∀ c ∈ decls, c ∈ decls') (halike : Alike g t T n) :
    ((decls.filterMap fun c => member? g c kind name) = [] ∧
        (decls'.filterMap fun c => member? g c kind name) = []) ∨
      ((decls.filterMap fun c => member? g c kind name) ≠ [] ∧
        ∀ m ∈ decls.filterMap fun c => member? g c kind name,
          m ∈ decls'.filterMap fun c => member? g c kind name) := by
  have hsame : hasMember g decls kind name = hasMember g decls' kind name :=
    halike _ _ (by simp [treatment?, haccess, hdecls]) (by simp [treatment?, haccess, hdecls'])
  by_cases hnone : (decls.filterMap fun c => member? g c kind name) = []
  · exact Or.inl ⟨hnone, hasMember_eq_false.1 (hsame ▸ hasMember_eq_false.2 hnone)⟩
  · refine Or.inr ⟨hnone, fun m hm => ?_⟩
    obtain ⟨c, hc, hm⟩ := List.mem_filterMap.1 hm
    exact List.mem_filterMap.2 ⟨c, hsub c hc, hm⟩

end Flow

end TypeFlow
