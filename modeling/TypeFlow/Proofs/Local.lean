import TypeFlow.Graph
import TypeFlow.Proofs.Run
/-!
# Faults for want of rounds

The one fault that no node of a program causes is that a run goes past its round ceiling. A
computation is `Local` if it does not fail so; `Run.Keeps` says the same of a run, and what holds
where it ends.
-/

namespace TypeFlow

/-- Whether a fault is that of a round ceiling. -/
def Fault.isDiverged : Fault → Bool
  | .diverged _ _ _ => true
  | _ => false

/-- A computation that does not fail for want of rounds. -/
def Local {α : Type} (x : Except Fault α) : Prop :=
  ∀ fault, x = .error fault → fault.isDiverged = false

section Local

variable {α β : Type} {x : Except Fault α}

theorem local_ok (a : α) : Local (.ok a : Except Fault α) := nofun

theorem local_pure (a : α) : Local (pure a : Except Fault α) := nofun

theorem local_error {fault : Fault} (h : fault.isDiverged = false) :
    Local (.error fault : Except Fault α) := by
  rintro _ ⟨⟩
  exact h

theorem Local.bind {f : α → Except Fault β} (hx : Local x) (hf : ∀ a, Local (f a)) :
    Local (x >>= f) := by
  intro fault h
  rcases Run.bind_eq_error.1 h with h | ⟨a, -, h⟩
  · exact hx fault h
  · exact hf a fault h

theorem local_mapM {f : α → Except Fault β} (hf : ∀ a, Local (f a)) :
    ∀ xs : List α, Local (xs.mapM f)
  | [] => local_pure _
  | x :: xs => by
    rw [List.mapM_cons]
    exact (hf x).bind fun _ => (local_mapM hf xs).bind fun _ => local_pure _

end Local

namespace Graph

variable {g : Graph} {n m : NodeId} {r : Role} {name : String}

theorem requireName_eq_ok : g.requireName n = .ok name ↔ g.name? n = some name := by
  unfold requireName
  cases g.name? n <;> simp

theorem requireChild_eq_ok : g.requireChild n r = .ok m ↔ g.child? n r = some m := by
  unfold requireChild
  cases g.child? n r <;> simp

theorem local_requireName (g : Graph) (n : NodeId) : Local (g.requireName n) := by
  unfold requireName
  split
  · exact local_ok _
  · exact local_error rfl

theorem local_requireChild (g : Graph) (n : NodeId) (r : Role) : Local (g.requireChild n r) := by
  unfold requireChild
  split
  · exact local_ok _
  · exact local_error rfl

end Graph

namespace Run

variable {σ α β : Type} {x : Run σ α} {s : σ} {E E' : σ → Prop} {Q Q' : α → σ → Prop}

/-- A run ends well with an answer and a state as told, or at a fault that is not for want of
rounds, also in a state as told. -/
def Keeps (x : Run σ α) (s : σ) (E : σ → Prop) (Q : α → σ → Prop) : Prop :=
  match x.run s with
  | (.ok a, t) => Q a t
  | (.error fault, t) => fault.isDiverged = false ∧ E t

theorem keeps_iff : Keeps x s E Q ↔ (∀ a t, x.run s = (.ok a, t) → Q a t) ∧
    ∀ fault t, x.run s = (.error fault, t) → fault.isDiverged = false ∧ E t := by
  unfold Keeps
  rcases x.run s with ⟨fault | a, t⟩ <;> simp

theorem keeps_pure {a : α} (h : Q a s) : Keeps (pure a) s E Q := by
  unfold Keeps
  rw [run_pure]
  exact h

theorem Keeps.mono (h : Keeps x s E Q) (hE : ∀ t, E t → E' t) (hQ : ∀ a t, Q a t → Q' a t) :
    Keeps x s E' Q' := by
  rw [keeps_iff] at h ⊢
  exact ⟨fun a t ht => hQ a t (h.1 a t ht), fun fault t ht => ⟨(h.2 fault t ht).1,
    hE t (h.2 fault t ht).2⟩⟩

theorem Keeps.bind {f : α → Run σ β} {R : β → σ → Prop} (hx : Keeps x s E Q)
    (hf : ∀ a t, Q a t → Keeps (f a) t E R) : Keeps (x >>= f) s E R := by
  rw [keeps_iff] at hx
  unfold Keeps
  rw [run_bind]
  rcases hrun : x.run s with ⟨fault | a, t⟩
  · exact hx.2 fault t hrun
  · exact hf a t (hx.1 a t hrun)

theorem keeps_get_bind {f : σ → Run σ β} {R : β → σ → Prop} (h : Keeps (f s) s E R) :
    Keeps (get >>= f) s E R := by
  unfold Keeps
  rw [run_bind_of_ok run_get]
  exact h

theorem keeps_lift_bind {x : StateM σ α} {f : α → Run σ β} {R : β → σ → Prop}
    (h : Keeps (f (x.run s).1) (x.run s).2 E R) : Keeps ((liftM x : Run σ α) >>= f) s E R := by
  have hrun : (liftM x : Run σ α).run s = (.ok (x.run s).1, (x.run s).2) := rfl
  unfold Keeps
  rw [run_bind_of_ok hrun]
  exact h

theorem keeps_ofExcept_bind {a : Except Fault α} {f : α → Run σ β} {R : β → σ → Prop}
    (ha : Local a) (hs : E s) (h : ∀ b, a = .ok b → Keeps (f b) s E R) :
    Keeps (Run.ofExcept a >>= f) s E R := by
  unfold Keeps
  cases a with
  | error fault =>
    rw [run_bind_of_error (run_ofExcept _)]
    exact ⟨ha fault rfl, hs⟩
  | ok b =>
    rw [run_bind_of_ok (run_ofExcept _)]
    exact h b rfl

/-- A run through a list keeps what each of its steps keeps. -/
theorem keeps_foldlM {γ : Type} {step : α → γ → Run σ α} {xs : List γ}
    (hstep : ∀ x ∈ xs, ∀ a t, Q a t → Keeps (step a x) t E Q) :
    ∀ {a : α} {s : σ}, Q a s → Keeps (xs.foldlM step a) s E Q := by
  induction xs with
  | nil => exact fun h => keeps_pure h
  | cons x xs ih =>
    intro a s h
    rw [List.foldlM_cons]
    exact (hstep x List.mem_cons_self a s h).bind
      fun _ _ => ih fun y hy => hstep y (List.mem_cons_of_mem _ hy)

end Run

end TypeFlow
